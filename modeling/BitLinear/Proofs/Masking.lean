import BitLinear.Generator
import BitLinear.Proofs.Filling
import BitLinear.Proofs.Rejection
import Mathlib

/-!
# Unmasking undoes masking

A generator draws from its source and keeps its configuration, whatever comes out (`run_draw`). By
either strategy it draws an invertible matrix with its inverse (`of_invertibleDraw_eq_ok`), and such
a pair fits every matrix of that height. So masking fails only if the draw does (`run_mask`), and
the inverse takes the mask off again : from the masked matrix and from everything that the masked
matrix is applied to (`unmasks_product`).
-/

open Matrix

namespace BitLinear

namespace Generator

variable {n r c : ℕ} {generator after : Generator} {inner mask unmask : BitMatrix}

/-! ## Runs of a generator -/

theorem run_draw {α : Type} (generator : Generator) (action : Draw α) :
    generator.run (draw action) = ((action.runOn generator.source).1,
      { generator with source := (action.runOn generator.source).2 }) :=
  rfl

theorem run_liftM {α : Type} (generator : Generator) (result : Except Error α) :
    generator.run (liftM result) = (result, generator) :=
  rfl

/-- The second computation goes on with the generator that the first one leaves. -/
theorem run_bind {α β : Type} (generator : Generator) (action : Generating α)
    (next : α → Generating β) : generator.run (action >>= next) =
      match generator.run action with
      | (.ok value, rest) => rest.run (next value)
      | (.error cause, rest) => (.error cause, rest) := by
  simp only [run, ExceptT.run_bind, StateT.run_bind]
  rcases StateT.run (ExceptT.run action) generator with ⟨_ | _, rest⟩ <;> rfl

/-- The draw that a configuration chooses. -/
def invertibleDraw (config : GeneratorConfig) (n : ℕ) : Draw (BitMatrix × BitMatrix) :=
  match config.strategy with
  | .incremental => BitMatrix.randomInvertible n
  | .rejection => BitMatrix.rejectionSample n config.maxAttempts

theorem run_randomInvertible (generator : Generator) (n : ℕ) :
    generator.run (randomInvertible n) =
      generator.run (draw (invertibleDraw generator.config n)) := by
  rcases generator with ⟨source, ⟨_ | _, maxAttempts⟩⟩ <;> rfl

/-- Either strategy draws an invertible matrix with its inverse. -/
theorem of_invertibleDraw_eq_ok {config : GeneratorConfig} {source rest : ByteSource}
    (h : (invertibleDraw config n).runOn source = (.ok (mask, unmask), rest)) :
    mask.HasShape n n ∧ mask.invert = .ok (some unmask) := by
  rcases config with ⟨_ | _, maxAttempts⟩
  · exact BitMatrix.of_randomInvertible_eq_ok h
  · exact BitMatrix.of_rejectionSample_eq_ok h

theorem of_randomInvertible_eq_ok
    (h : generator.run (randomInvertible n) = (.ok (mask, unmask), after)) :
    mask.HasShape n n ∧ mask.invert = .ok (some unmask) := by
  rw [run_randomInvertible, run_draw] at h
  exact of_invertibleDraw_eq_ok (Prod.ext (Prod.mk.inj h).1 rfl)

/-- Drawing an invertible matrix leaves the configuration alone. -/
theorem config_randomInvertible (generator : Generator) (n : ℕ) :
    (generator.run (randomInvertible n)).2.config = generator.config := by
  rw [run_randomInvertible, run_draw]

/-- Masking draws a pair and composes its first matrix with the given one. -/
theorem run_mask (generator : Generator) (inner : BitMatrix) :
    generator.run (Generator.mask inner) =
      match generator.run (randomInvertible inner.rows.length) with
      | (.ok (mask, unmask), rest) =>
        ((mask.compose inner).map fun masked => ⟨mask, unmask, masked⟩, rest)
      | (.error cause, rest) => (.error cause, rest) := by
  rw [Generator.mask, run_bind]
  rcases generator.run (randomInvertible inner.rows.length) with ⟨_ | ⟨mask, unmask⟩, rest⟩
  · rfl
  · dsimp only
    rw [run_bind, run_liftM]
    cases mask.compose inner <;> rfl

/-! ## Taking the mask off -/

/-- The parts of a masking fit, and the unmasking matrix undoes what the mask does to `inner`. -/
structure Masking.Unmasks (masking : Masking) (inner : BitMatrix) (r c : ℕ) : Prop where
  mask_shape : masking.mask.HasShape r r
  unmask_shape : masking.unmask.HasShape r r
  masked_shape : masking.masked.HasShape r c
  identity : BitMatrix.identity r = .ok (BitMatrix.eye r)
  mask_unmask : masking.mask.compose masking.unmask = .ok (BitMatrix.eye r)
  unmask_mask : masking.unmask.compose masking.mask = .ok (BitMatrix.eye r)
  unmask_masked : masking.unmask.compose masking.masked = .ok inner
  apply : ∀ v : BitRow, v.length = c → ∃ hidden image, masking.masked.apply v = .ok hidden ∧
    masking.unmask.apply hidden = .ok image ∧ inner.apply v = .ok image

/-- An invertible matrix masks every matrix of its height, and its inverse takes the mask off. -/
theorem unmasks_product (hinner : inner.HasShape r c) (hmask : mask.HasShape r r)
    (hinv : mask.invert = .ok (some unmask)) :
    (⟨mask, unmask, mask.product inner⟩ : Masking).Unmasks inner r c := by
  obtain ⟨hunmask, hmul⟩ := (BitMatrix.invert_eq_some_iff hmask).mp hinv
  have hr := hmask.aligned
  have hmasked := hmask.product hinner
  have hback : unmask.toMatrix r r * (mask.product inner).toMatrix r c = inner.toMatrix r c := by
    rw [BitMatrix.toMatrix_product hmask hinner, ← Matrix.mul_assoc, hmul, Matrix.one_mul]
  obtain ⟨hcancel, hcancel'⟩ := hmask.compose_inverse hinv
  refine ⟨hmask, hunmask, hmasked, BitMatrix.identity_eq_ok hr, hcancel, hcancel', ?_,
    fun v hv => ?_⟩
  · rw [BitMatrix.compose_eq_ok hunmask hmasked, Except.ok.injEq,
      ← BitMatrix.toMatrix_inj (hunmask.product hmasked) hinner,
      BitMatrix.toMatrix_product hunmask hmasked, hback]
  · have hhidden := BitMatrix.length_image hmasked hr v
    refine ⟨_, _, BitMatrix.apply_eq_ok hmasked hr hv, BitMatrix.apply_eq_ok hunmask hr hhidden, ?_⟩
    rw [BitMatrix.apply_eq_ok hinner hr hv, Except.ok.injEq,
      ← BitRow.toVec_inj (BitMatrix.length_image hinner hr v)
        (BitMatrix.length_image hunmask hr _), BitMatrix.toVec_image hinner hr hv,
      BitMatrix.toVec_image hunmask hr hhidden, BitMatrix.toVec_image hmasked hr hv,
      Matrix.mulVec_mulVec, hback]

/-- The pair that is drawn decides the masking. -/
theorem run_mask_of_randomInvertible (hinner : inner.HasShape r c)
    (h : generator.run (randomInvertible r) = (.ok (mask, unmask), after)) :
    generator.run (Generator.mask inner) =
      (.ok ⟨mask, unmask, mask.product inner⟩, after) := by
  rw [run_mask, hinner.length_rows, h]
  dsimp only
  rw [BitMatrix.compose_eq_ok (of_randomInvertible_eq_ok h).1 hinner]
  rfl

theorem of_mask_eq_ok {masking : Masking} (hinner : inner.HasShape r c)
    (h : generator.run (Generator.mask inner) = (.ok masking, after)) :
    masking.Unmasks inner r c := by
  rcases hpair : generator.run (randomInvertible r) with ⟨_ | ⟨mask, unmask⟩, rest⟩
  · rw [run_mask, hinner.length_rows, hpair] at h
    simp at h
  · obtain ⟨hmask, hinv⟩ := of_randomInvertible_eq_ok hpair
    rw [run_mask_of_randomInvertible hinner hpair] at h
    obtain rfl := Except.ok.inj (Prod.mk.inj h).1
    exact unmasks_product hinner hmask hinv

theorem config_mask (generator : Generator) (inner : BitMatrix) :
    (generator.run (Generator.mask inner)).2.config = generator.config := by
  rw [run_mask, ← config_randomInvertible generator inner.rows.length]
  rcases generator.run (randomInvertible inner.rows.length) with ⟨_ | ⟨mask, unmask⟩, rest⟩ <;> rfl

/-- A masking comes with the inverse of its mask, which takes the mask off again. Masking does not
fail once a pair is drawn, and never changes the configuration. -/
theorem mask_unmasks (generator : Generator) (hinner : inner.HasShape r c) :
    (∀ masking after, generator.run (Generator.mask inner) = (.ok masking, after) →
      masking.Unmasks inner r c) ∧
    (∀ mask unmask after, generator.run (randomInvertible r) = (.ok (mask, unmask), after) →
      ∃ masked, generator.run (Generator.mask inner) = (.ok ⟨mask, unmask, masked⟩, after)) ∧
    (generator.run (Generator.mask inner)).2.config = generator.config :=
  ⟨fun _ _ => of_mask_eq_ok hinner,
    fun _ _ _ h => ⟨_, run_mask_of_randomInvertible hinner h⟩, config_mask generator inner⟩

/-- A mask of eight rows, of which one is dropped, for a matrix of two bytes a row. -/
theorem mask_unmasks_eight :
    (⟨List.replicate 8 ⟨#[3, 255]⟩, 16⟩ : BitMatrix).HasShape 8 16 ∧ ∃ masking after,
      run ⟨.script [2, 1, 4, 8, 16, 96, 64, 1, 255], ⟨.incremental, 0⟩⟩
          (Generator.mask ⟨List.replicate 8 ⟨#[3, 255]⟩, 16⟩) = (.ok masking, after) ∧
        masking.Unmasks ⟨List.replicate 8 ⟨#[3, 255]⟩, 16⟩ 8 16 := by
  have hinner : (⟨List.replicate 8 ⟨#[3, 255]⟩, 16⟩ : BitMatrix).HasShape 8 16 := by decide
  have hpair : run ⟨.script [2, 1, 4, 8, 16, 96, 64, 1, 255], ⟨.incremental, 0⟩⟩
      (randomInvertible 8) =
        (.ok (BitMatrix.sample, BitMatrix.sampleInverse), ⟨.script [], ⟨.incremental, 0⟩⟩) := by cbv
  obtain ⟨hunmasks, hok, -⟩ :=
    mask_unmasks ⟨.script [2, 1, 4, 8, 16, 96, 64, 1, 255], ⟨.incremental, 0⟩⟩ hinner
  obtain ⟨masked, hmask⟩ := hok _ _ _ hpair
  exact ⟨hinner, _, _, hmask, hunmasks _ _ hmask⟩

end Generator

end BitLinear
