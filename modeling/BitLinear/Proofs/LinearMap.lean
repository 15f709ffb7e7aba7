import BitLinear.BitMatrix.LinearMap
import BitLinear.ByteProgram
import BitLinear.Proofs.Supply
import BitLinear.Proofs.Transpose
import Mathlib.Algebra.Module.ZMod
import Mathlib.LinearAlgebra.Matrix.ToLin

/-!
# The matrix of a linear map is the map

`evaluateAll map inputs` evaluates a map with a state on some buffers one after the other. The
matrix of a map is made of its images of the unit vectors and of nothing else
(`run_ofStatefulMap`) : the product with the unit vector `j` is image `j`
(`ofLinearMap_mulVec_single`).

A map that takes sums to sums is linear on vectors (`vectorMap`), so its matrix agrees with it
everywhere. A matrix acts on buffers as such a map, and two matrices that agree on the unit vectors
are equal. The last statement puts together how often and on what a map is evaluated, that the
matrix of a linear map acts as the map, and that a matrix is the matrix of its own action.
-/

open Matrix

namespace BitLinear

/-- The sum of two buffers of one size, byte by byte. -/
def xorBytes (x y : List Byte) : List Byte :=
  List.zipWith (· ^^^ ·) x y

theorem BitRow.ofBytes_xorBytes (x y : List Byte) :
    ofBytes (xorBytes x y) = (ofBytes x).sum (ofBytes y) := by
  simp [ofBytes, xorBytes, sum]

theorem BitRow.toBytes_sum (a b : BitRow) : (a.sum b).toBytes = xorBytes a.toBytes b.toBytes := by
  rw [← toBytes_ofBytes (xorBytes _ _), ofBytes_xorBytes, ofBytes_toBytes, ofBytes_toBytes]

namespace BitMatrix

variable {σ : Type} {n r c : ℕ} {m : BitMatrix} {map : List Byte → StateM σ (List Byte)}

/-! ## Evaluations -/

/-- The buffers of `n` bits with one bit set, by the position of that bit. -/
def unitBuffers (n : ℕ) : List (List Byte) :=
  (List.range n).map fun j => (BitRow.unitRow n j).toBytes

/-- Evaluate a map on some buffers, one after the other. -/
def evaluateAll (map : List Byte → StateM σ (List Byte)) :
    List (List Byte) → σ → List (List Byte) × σ
  | [], s => ([], s)
  | x :: inputs, s =>
    let (image, next) := map x s
    let (images, last) := evaluateAll map inputs next
    (image :: images, last)

/-- The map that also writes down what it is evaluated on. -/
def recording (map : List Byte → StateM σ (List Byte)) (x : List Byte) :
    StateM (σ × List (List Byte)) (List Byte) := fun (s, inputs) =>
  let (image, next) := map x s
  (image, next, inputs ++ [x])

/-- A map on buffers of some size, which changes them in place. -/
def KeepsSize (size : ℕ) (map : List Byte → StateM σ (List Byte)) : Prop :=
  ∀ x s, x.length = size → (map x s).1.length = size

theorem recording_apply (x : List Byte) (s : σ) (inputs : List (List Byte)) :
    recording map x (s, inputs) = ((map x s).1, (map x s).2, inputs ++ [x]) :=
  rfl

theorem keepsSize_recording {size : ℕ} (hmap : KeepsSize size map) :
    KeepsSize size (recording map) :=
  fun x s hx => hmap x s.1 hx

theorem evaluateAll_cons (x : List Byte) (inputs : List (List Byte)) (s : σ) :
    evaluateAll map (x :: inputs) s = ((map x s).1 :: (evaluateAll map inputs (map x s).2).1,
      (evaluateAll map inputs (map x s).2).2) :=
  rfl

theorem evaluateAll_recording : ∀ (inputs : List (List Byte)) (s : σ) (before : List (List Byte)),
    evaluateAll (recording map) inputs (s, before) =
      ((evaluateAll map inputs s).1, (evaluateAll map inputs s).2, before ++ inputs)
  | [], s, before => by simp [evaluateAll]
  | x :: inputs, s, before => by
    rw [evaluateAll_cons, recording_apply, evaluateAll_recording inputs, evaluateAll_cons,
      List.append_assoc, List.singleton_append]

theorem evaluateAll_pure (f : List Byte → List Byte) : ∀ inputs : List (List Byte),
    evaluateAll (fun x => (pure (f x) : StateM Unit (List Byte))) inputs () = (inputs.map f, ())
  | [] => rfl
  | x :: inputs => by
    rw [evaluateAll_cons, List.map_cons]
    exact congrArg (fun rest => (f x :: rest.1, rest.2)) (evaluateAll_pure f inputs)

theorem length_evaluateAll (map : List Byte → StateM σ (List Byte)) :
    ∀ (inputs : List (List Byte)) (s : σ), (evaluateAll map inputs s).1.length = inputs.length
  | [], _ => rfl
  | x :: inputs, s => congrArg (· + 1) (length_evaluateAll map inputs (map x s).2)

theorem KeepsSize.length_of_mem_evaluateAll {size : ℕ} (hmap : KeepsSize size map) :
    ∀ {inputs : List (List Byte)} {s : σ}, (∀ x ∈ inputs, x.length = size) →
      ∀ image ∈ (evaluateAll map inputs s).1, image.length = size
  | [], _, _ => fun _ h => absurd h List.not_mem_nil
  | x :: inputs, s, hinputs => by
    obtain ⟨hx, hrest⟩ := List.forall_mem_cons.mp hinputs
    exact List.forall_mem_cons.mpr ⟨hmap x s hx, hmap.length_of_mem_evaluateAll hrest⟩

theorem length_unitBuffers (n : ℕ) : (unitBuffers n).length = n := by
  simp [unitBuffers]

theorem length_toBytes_unitRow (hn : n % 8 = 0) (j : ℕ) :
    (BitRow.unitRow n j).toBytes.length = n / 8 :=
  BitRow.length_toBytes (BitRow.length_unitRow hn j)

theorem length_of_mem_unitBuffers (hn : n % 8 = 0) : ∀ x ∈ unitBuffers n, x.length = n / 8 := by
  intro x hx
  obtain ⟨j, -, rfl⟩ := List.mem_map.mp hx
  exact length_toBytes_unitRow hn j

theorem mapM_unit_eq_ok (hn : n % 8 = 0) :
    (List.range n).mapM (BitRow.unit n) = .ok ((unitBuffers n).map BitRow.ofBytes) := by
  rw [mapM_eq_ok fun j hj => BitRow.unit_eq_ok hn (List.mem_range.mp hj)]
  simp [unitBuffers]

/-! ## The matrix of a map -/

theorem run_unitImage (hn : n % 8 = 0) (hmap : KeepsSize (n / 8) map) {j : ℕ} (hj : j < n)
    (s : σ) : (unitImage n map j).run s =
      .ok (BitRow.ofBytes (map (BitRow.unitRow n j).toBytes s).1,
        (map (BitRow.unitRow n j).toBytes s).2) := by
  have hlen := hmap _ s (length_toBytes_unitRow hn j)
  rw [unitImage, BitRow.unit_eq_ok hn hj]
  change (if 8 * (map (BitRow.unitRow n j).toBytes s).1.length = n then _ else _ :
    StateT σ (Except Error) BitRow).run _ = _
  rw [if_pos (by omega)]
  rfl

/-- The images are drawn up in the order of the evaluations. -/
theorem run_mapM_unitImage (hn : n % 8 = 0) (hmap : KeepsSize (n / 8) map) :
    ∀ {positions : List ℕ}, (∀ j ∈ positions, j < n) → ∀ s : σ,
      (positions.mapM (unitImage n map)).run s =
        .ok ((evaluateAll map (positions.map fun j => (BitRow.unitRow n j).toBytes) s).1.map
            BitRow.ofBytes,
          (evaluateAll map (positions.map fun j => (BitRow.unitRow n j).toBytes) s).2)
  | [], _, s => rfl
  | j :: positions, h, s => by
    obtain ⟨hj, hrest⟩ := List.forall_mem_cons.mp h
    rw [List.mapM_cons, StateT.run_bind, run_unitImage hn hmap hj, ok_bind, StateT.run_bind,
      run_mapM_unitImage hn hmap hrest]
    rfl

/-- The matrix whose columns are some images. -/
def ofImages (n : ℕ) (images : List (List Byte)) : BitMatrix :=
  transposed ⟨images.map BitRow.ofBytes, n⟩

theorem hasShape_images (hn : n % 8 = 0) {images : List (List Byte)} (hlen : images.length = n)
    (himages : ∀ image ∈ images, image.length = n / 8) :
    (⟨images.map BitRow.ofBytes, n⟩ : BitMatrix).HasShape n n := by
  refine hasShape_mk hn (by rw [List.length_map, hlen]) fun row hrow => ?_
  obtain ⟨image, himage, rfl⟩ := List.mem_map.mp hrow
  exact BitRow.length_ofBytes hn (himages image himage)

/-- The matrix of a map is made of its images of the unit vectors. -/
theorem run_ofStatefulMap (hn : n % 8 = 0) (hmap : KeepsSize (n / 8) map) (s : σ) :
    (ofStatefulMap n map).run s = .ok (ofImages n (evaluateAll map (unitBuffers n) s).1,
      (evaluateAll map (unitBuffers n) s).2) := by
  have hshape := hasShape_images hn
    ((length_evaluateAll map (unitBuffers n) s).trans (length_unitBuffers n))
    (hmap.length_of_mem_evaluateAll (length_of_mem_unitBuffers hn))
  have hbelow : ∀ j ∈ List.range n, j < n := fun j hj => List.mem_range.mp hj
  have himages := run_mapM_unitImage hn hmap hbelow s
  rw [ofStatefulMap, checkAligned_eq_ok hn]
  change (do let images ← (List.range n).mapM (unitImage n map); transpose ⟨images, n⟩ :
    StateT σ (Except Error) BitMatrix).run s = _
  rw [StateT.run_bind, himages, ok_bind]
  change (do let made ← transpose _; pure (made, _) : Except Error (BitMatrix × σ)) = _
  rw [← unitBuffers, transpose_eq_ok hshape hn]
  rfl

theorem hasShape_ofImages (hn : n % 8 = 0) {images : List (List Byte)} (hlen : images.length = n)
    (himages : ∀ image ∈ images, image.length = n / 8) : (ofImages n images).HasShape n n :=
  (hasShape_images hn hlen himages).transposed hn

/-- Column `j` is image `j`. -/
theorem entry_ofImages (hn : n % 8 = 0) {images : List (List Byte)} (hlen : images.length = n)
    (himages : ∀ image ∈ images, image.length = n / 8) {i j : ℕ} (hi : i < n)
    (hj : j < images.length) :
    (ofImages n images).entry i j = (BitRow.ofBytes images[j]).testBit i := by
  rw [ofImages, (hasShape_images hn hlen himages).entry_transposed hn (hj.trans_eq hlen) hi, entry,
    List.getD_eq_getElem _ _ (by simpa using hj), List.getElem_map]

/-! ## Maps without a state -/

variable {f : List Byte → List Byte}

theorem ofLinearMap_eq_ok (hn : n % 8 = 0) (hf : ∀ x, x.length = n / 8 → (f x).length = n / 8) :
    ofLinearMap n f = .ok (ofImages n ((unitBuffers n).map f)) := by
  have hmap : KeepsSize (n / 8) fun x => (pure (f x) : StateM Unit (List Byte)) :=
    fun x _ hx => hf x hx
  rw [ofLinearMap, StateT.run'_eq, run_ofStatefulMap hn hmap, evaluateAll_pure]
  rfl

theorem length_map_unitBuffers (n : ℕ) (f : List Byte → List Byte) :
    ((unitBuffers n).map f).length = n :=
  (List.length_map f).trans (length_unitBuffers n)

theorem length_of_mem_map_unitBuffers (hn : n % 8 = 0)
    (hf : ∀ x, x.length = n / 8 → (f x).length = n / 8) :
    ∀ image ∈ (unitBuffers n).map f, image.length = n / 8 := by
  intro image himage
  obtain ⟨x, hx, rfl⟩ := List.mem_map.mp himage
  exact hf x (length_of_mem_unitBuffers hn x hx)

theorem hasShape_map_unitBuffers (hn : n % 8 = 0)
    (hf : ∀ x, x.length = n / 8 → (f x).length = n / 8) :
    (ofImages n ((unitBuffers n).map f)).HasShape n n :=
  hasShape_ofImages hn (length_map_unitBuffers n f) (length_of_mem_map_unitBuffers hn hf)

theorem ofImages_map_mulVec_single (hn : n % 8 = 0)
    (hf : ∀ x, x.length = n / 8 → (f x).length = n / 8) (j : Fin n) :
    (ofImages n ((unitBuffers n).map f)).toMatrix n n *ᵥ Pi.single j 1 =
      (BitRow.ofBytes (f (BitRow.unitRow n j).toBytes)).toVec n := by
  have hlen := length_map_unitBuffers n f
  have himages := length_of_mem_map_unitBuffers hn hf
  ext i
  rw [Matrix.mulVec_single_one, Matrix.col_apply, toMatrix_apply,
    entry_ofImages hn hlen himages i.isLt (hlen.symm ▸ j.isLt), BitRow.toVec_apply]
  simp [unitBuffers]

/-! ## Action -/

theorem applyToBytes_eq_ok (hm : m.HasShape r c) (hr : r % 8 = 0) {x : List Byte}
    (hx : x.length = c / 8) : m.applyToBytes x = .ok (m.image (BitRow.ofBytes x)).toBytes := by
  rw [applyToBytes, apply_eq_ok hm hr (BitRow.length_ofBytes hm.aligned hx)]
  rfl

/-- A map on buffers of `size` bytes that takes sums to sums. -/
structure IsLinear (size : ℕ) (f : List Byte → List Byte) : Prop where
  length_map : ∀ x, x.length = size → (f x).length = size
  map_xorBytes : ∀ x y, x.length = size → y.length = size →
    f (xorBytes x y) = xorBytes (f x) (f y)

/-- A map on buffers, on the vectors of their bits. -/
def vectorMap (n : ℕ) (f : List Byte → List Byte) (v : Fin n → ZMod 2) : Fin n → ZMod 2 :=
  (BitRow.ofBytes (f (BitRow.ofVec v).toBytes)).toVec n

theorem vectorMap_toVec (hn : n % 8 = 0) {row : BitRow} (h : row.length = n) :
    vectorMap n f (row.toVec n) = (BitRow.ofBytes (f row.toBytes)).toVec n := by
  rw [vectorMap, BitRow.ofVec_toVec hn h]

theorem IsLinear.vectorMap_add (hf : IsLinear (n / 8) f) (hn : n % 8 = 0)
    (v w : Fin n → ZMod 2) : vectorMap n f (v + w) = vectorMap n f v + vectorMap n f w := by
  have hv := BitRow.length_ofVec hn v
  have hw := BitRow.length_ofVec hn w
  have hfv := hf.length_map _ (BitRow.length_toBytes hv)
  have hfw := hf.length_map _ (BitRow.length_toBytes hw)
  rw [vectorMap, BitRow.ofVec_add hn, BitRow.toBytes_sum,
    hf.map_xorBytes _ _ (BitRow.length_toBytes hv) (BitRow.length_toBytes hw),
    BitRow.ofBytes_xorBytes, BitRow.toVec_sum
      ((BitRow.length_ofBytes hn hfv).trans (BitRow.length_ofBytes hn hfw).symm)]
  rfl

/-- A map that takes sums to sums is linear, as zero and one are the only scalars. -/
def IsLinear.toLinearMap (hf : IsLinear (n / 8) f) (hn : n % 8 = 0) :
    (Fin n → ZMod 2) →ₗ[ZMod 2] Fin n → ZMod 2 :=
  AddMonoidHom.toZModLinearMap 2 (AddMonoidHom.mk' (vectorMap n f) (hf.vectorMap_add hn))

theorem IsLinear.toMatrix_ofImages (hf : IsLinear (n / 8) f) (hn : n % 8 = 0) :
    (ofImages n ((unitBuffers n).map f)).toMatrix n n =
      LinearMap.toMatrix' (hf.toLinearMap hn) := by
  refine Matrix.ext_of_mulVec_single fun j => ?_
  rw [ofImages_map_mulVec_single hn hf.length_map, LinearMap.toMatrix'_mulVec,
    ← vectorMap_toVec hn (BitRow.length_unitRow hn j), BitRow.toVec_unitRow hn]
  rfl

/-! ## Faithfulness -/

/-- A map is evaluated on the unit vectors alone, once on each and in increasing order, and its
images are the columns. -/
theorem KeepsSize.exists_run_ofStatefulMap (hmap : KeepsSize (n / 8) map) (hn : n % 8 = 0)
    (s : σ) : ∃ images last m, evaluateAll map (unitBuffers n) s = (images, last) ∧
      (ofStatefulMap n map).run s = .ok (m, last) ∧
      (ofStatefulMap n (recording map)).run (s, []) = .ok (m, last, unitBuffers n) ∧
      m.HasShape n n ∧ images.length = n ∧
      ∀ j (hj : j < images.length), ∀ i < n,
        m.entry i j = (BitRow.ofBytes images[j]).testBit i := by
  have hlen := (length_evaluateAll map (unitBuffers n) s).trans (length_unitBuffers n)
  have himages := hmap.length_of_mem_evaluateAll (s := s) (length_of_mem_unitBuffers hn)
  have hrecorded := run_ofStatefulMap hn (keepsSize_recording hmap) (s, [])
  rw [evaluateAll_recording, List.nil_append] at hrecorded
  exact ⟨_, _, _, rfl, run_ofStatefulMap hn hmap s, hrecorded, hasShape_ofImages hn hlen himages,
    hlen, fun j hj i hi => entry_ofImages hn hlen himages hi hj⟩

/-- The matrix of a linear map acts as the map. -/
theorem IsLinear.exists_ofLinearMap_eq_ok (hf : IsLinear (n / 8) f) (hn : n % 8 = 0) :
    ∃ m, ofLinearMap n f = .ok m ∧
      ∀ x, x.length = n / 8 → m.applyToBytes x = .ok (f x) := by
  have hshape := hasShape_map_unitBuffers hn hf.length_map
  refine ⟨_, ofLinearMap_eq_ok hn hf.length_map, fun x hx => ?_⟩
  have hrow := BitRow.length_ofBytes hn hx
  have himage : (ofImages n ((unitBuffers n).map f)).image (BitRow.ofBytes x) =
      BitRow.ofBytes (f x) := by
    rw [← BitRow.toVec_inj (length_image hshape hn _)
      (BitRow.length_ofBytes hn (hf.length_map x hx)), toVec_image hshape hn hrow,
      hf.toMatrix_ofImages hn, LinearMap.toMatrix'_mulVec]
    exact vectorMap_toVec hn hrow
  rw [applyToBytes_eq_ok hshape hn hx, himage, BitRow.toBytes_ofBytes]

/-- A matrix is the matrix of what it does to buffers. -/
theorem HasShape.ofLinearMap_eq_ok (hm : m.HasShape n n)
    (hf : ∀ x, x.length = n / 8 → m.applyToBytes x = .ok (f x)) : ofLinearMap n f = .ok m := by
  have hn := hm.aligned
  have himage (x : List Byte) (hx : x.length = n / 8) :
      BitRow.ofBytes (f x) = m.image (BitRow.ofBytes x) := by
    have hbytes := (hf x hx).symm.trans (applyToBytes_eq_ok hm hn hx)
    rw [Except.ok.inj hbytes, BitRow.ofBytes_toBytes]
  have hlen (x : List Byte) (hx : x.length = n / 8) : (f x).length = n / 8 := by
    rw [← BitRow.toBytes_ofBytes (f x), himage x hx]
    exact BitRow.length_toBytes (length_image hm hn _)
  rw [BitMatrix.ofLinearMap_eq_ok hn hlen, Except.ok.injEq,
    ← toMatrix_inj (hasShape_map_unitBuffers hn hlen) hm]
  refine Matrix.ext_of_mulVec_single fun j => ?_
  rw [ofImages_map_mulVec_single hn hlen, himage _ (length_toBytes_unitRow hn j),
    BitRow.ofBytes_toBytes, toVec_image hm hn (BitRow.length_unitRow hn j), BitRow.toVec_unitRow hn]

/-- The matrix of a map is made of one evaluation on each unit vector, in increasing order. If the
map is linear the matrix acts as the map does, and every square matrix is the matrix of its own
action. -/
theorem ofLinearMap_represents (hn : n % 8 = 0) :
    (List.range n).mapM (BitRow.unit n) = .ok ((unitBuffers n).map BitRow.ofBytes) ∧
    (∀ (σ : Type) (map : List Byte → StateM σ (List Byte)) (s : σ), KeepsSize (n / 8) map →
      ∃ images last m, evaluateAll map (unitBuffers n) s = (images, last) ∧
        (ofStatefulMap n map).run s = .ok (m, last) ∧
        (ofStatefulMap n (recording map)).run (s, []) = .ok (m, last, unitBuffers n) ∧
        m.HasShape n n ∧ images.length = n ∧
        ∀ j (hj : j < images.length), ∀ i < n,
          m.entry i j = (BitRow.ofBytes images[j]).testBit i) ∧
    (∀ f, IsLinear (n / 8) f → ∃ m, ofLinearMap n f = .ok m ∧
      ∀ x, x.length = n / 8 → m.applyToBytes x = .ok (f x)) ∧
    ∀ m, m.HasShape n n →
      (∀ x, x.length = n / 8 → ∃ y, m.applyToBytes x = .ok y ∧ y.length = n / 8) ∧
      ∀ f, (∀ x, x.length = n / 8 → m.applyToBytes x = .ok (f x)) → ofLinearMap n f = .ok m := by
  refine ⟨mapM_unit_eq_ok hn, fun σ map s hmap => hmap.exists_run_ofStatefulMap hn s,
    fun f hf => hf.exists_ofLinearMap_eq_ok hn,
    fun m hm => ⟨fun x hx => ⟨_, applyToBytes_eq_ok hm hn hx, ?_⟩, fun f hf => ?_⟩⟩
  · exact BitRow.length_toBytes (length_image hm hn _)
  · exact hm.ofLinearMap_eq_ok hf

/-- A map that counts its evaluations, one that exchanges two bytes, and the action of a matrix. -/
theorem ofLinearMap_represents_sixteen : 16 % 8 = 0 ∧
    KeepsSize (16 / 8) (ByteProgram.run [.reverse, .count 1]) ∧
    (∃ images m, (ofStatefulMap 16 (ByteProgram.run [.reverse, .count 1])).run 3 = .ok (m, 19) ∧
      (ofStatefulMap 16 (recording (ByteProgram.run [.reverse, .count 1]))).run (3, []) =
        .ok (m, 19, unitBuffers 16) ∧
      ∀ j (hj : j < List.length images), ∀ i < 16,
        m.entry i j = (BitRow.ofBytes images[j]).testBit i) ∧
    IsLinear (16 / 8) List.reverse ∧ (∃ m, ofLinearMap 16 List.reverse = .ok m ∧
      m.applyToBytes [5, 129] = .ok [129, 5]) ∧
    let m : BitMatrix := ⟨List.replicate 15 ⟨#[6, 129]⟩ ++ [⟨#[255, 8]⟩], 16⟩
    m.HasShape 16 16 ∧
      ofLinearMap 16 (fun x => (m.image (BitRow.ofBytes x)).toBytes) = .ok m := by
  obtain ⟨-, hstateful, hlinear, hmatrix⟩ := ofLinearMap_represents (n := 16) rfl
  have hmap : KeepsSize (16 / 8) (ByteProgram.run [.reverse, .count 1]) := by
    intro x s hx
    simpa [ByteProgram.run, ByteInstruction.apply, ByteInstruction.modifyAt] using hx
  have hreverse : IsLinear (16 / 8) List.reverse :=
    ⟨fun x hx => (List.length_reverse ..).trans hx,
      fun x y hx hy => List.reverse_zipWith (hx.trans hy.symm)⟩
  have hm : (⟨List.replicate 15 ⟨#[6, 129]⟩ ++ [⟨#[255, 8]⟩], 16⟩ : BitMatrix).HasShape 16 16 := by
    decide
  obtain ⟨images, last, m, heval, hrun, hrecorded, -, -, hentry⟩ := hstateful ℕ _ 3 hmap
  obtain rfl : 19 = last := congrArg Prod.snd heval
  obtain ⟨m', hm', happly⟩ := hlinear _ hreverse
  exact ⟨rfl, hmap, ⟨images, m, hrun, hrecorded, hentry⟩, hreverse, ⟨m', hm', happly _ rfl⟩, hm,
    (hmatrix _ hm).2 _ fun x hx => applyToBytes_eq_ok hm rfl hx⟩

end BitMatrix

end BitLinear
