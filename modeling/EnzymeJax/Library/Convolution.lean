import EnzymeJax.Library.Windows

/-!
# Convolutions

A convolution slides the windows of a kernel over the spatial dimensions of its operand and sums the products over
the positions of a window and the features of a group. Operands and result say which dimensions are what.
-/

namespace Tensor

open Finset
open List hiding mem_range sum_eq_zero

/-- The dimensions of the operand, of the kernel and of the result. -/
structure ConvDims where
  inputBatch : Nat
  inputFeature : Nat
  inputSpatial : List Nat
  kernelInputFeature : Nat
  kernelOutputFeature : Nat
  kernelSpatial : List Nat
  outputBatch : Nat
  outputFeature : Nat
  outputSpatial : List Nat

namespace ConvDims

variable (dims : ConvDims)

def input : List Nat := dims.inputBatch :: dims.inputFeature :: dims.inputSpatial

def kernel : List Nat := dims.kernelInputFeature :: dims.kernelOutputFeature :: dims.kernelSpatial

def output : List Nat := dims.outputBatch :: dims.outputFeature :: dims.outputSpatial

end ConvDims

/-- The windows are those of the spatial dimensions, with the dilations of the operand and of the kernel. -/
structure Conv where
  dims : ConvDims
  windows : List WindowDim
  reversal : List Bool
  featureGroups : Nat
  batchGroups : Nat

namespace Conv

variable (c : Conv)

structure Ok (lhs rhs : List Nat) : Prop where
  input_perm : c.dims.input.Perm (List.range lhs.length)
  kernel_perm : c.dims.kernel.Perm (List.range rhs.length)
  output_perm : c.dims.output.Perm (List.range lhs.length)
  length_windows : c.windows.length = c.dims.inputSpatial.length
  windows_ok : ∀ d ∈ c.windows, d.Ok
  window_size : c.windows.map WindowDim.window = c.dims.kernelSpatial.map (coord rhs)
  length_reversal : c.reversal.length = c.windows.length
  groups : 0 < c.featureGroups ∧ 0 < c.batchGroups ∧ (c.featureGroups = 1 ∨ c.batchGroups = 1)
  features : coord lhs c.dims.inputFeature = c.featureGroups * coord rhs c.dims.kernelInputFeature
  output_features : c.featureGroups ∣ coord rhs c.dims.kernelOutputFeature ∧
    c.batchGroups ∣ coord rhs c.dims.kernelOutputFeature
  batches : c.batchGroups ∣ coord lhs c.dims.inputBatch

instance (lhs rhs : List Nat) : Decidable (c.Ok lhs rhs) :=
  decidable_of_iff (_ ∧ _ ∧ _ ∧ _ ∧ _ ∧ _ ∧ _ ∧ _ ∧ _ ∧ _ ∧ _)
    ⟨fun ⟨h₁, h₂, h₃, h₄, h₅, h₆, h₇, h₈, h₉, h₁₀, h₁₁⟩ => ⟨h₁, h₂, h₃, h₄, h₅, h₆, h₇, h₈, h₉, h₁₀, h₁₁⟩,
      fun ⟨h₁, h₂, h₃, h₄, h₅, h₆, h₇, h₈, h₉, h₁₀, h₁₁⟩ => ⟨h₁, h₂, h₃, h₄, h₅, h₆, h₇, h₈, h₉, h₁₀, h₁₁⟩⟩

/-- The extents of the batch, the features and the spatial dimensions of the result. -/
def outputSizes (lhs rhs : List Nat) : List Nat :=
  coord lhs c.dims.inputBatch / c.batchGroups :: coord rhs c.dims.kernelOutputFeature ::
    List.zipWith WindowDim.numWindows c.windows (c.dims.inputSpatial.map (coord lhs))

def shape (lhs rhs : List Nat) : List Nat :=
  (List.range lhs.length).map (place c.dims.output (coord (c.outputSizes lhs rhs)))

/-- The batch of the operand that a batch and a feature of the result are computed from. -/
def batch (lhs rhs : List Nat) (b f : Nat) : Nat :=
  f / (coord rhs c.dims.kernelOutputFeature / c.batchGroups) * (coord lhs c.dims.inputBatch / c.batchGroups) + b

/-- Feature `k` of the group of a feature of the result. -/
def feature (rhs : List Nat) (f k : Nat) : Nat :=
  f / (coord rhs c.dims.kernelOutputFeature / c.featureGroups) * coord rhs c.dims.kernelInputFeature + k

/-- The position in the kernel of a position in a window. -/
def kernelPosition (w : List Nat) : List Nat :=
  List.zipWith (fun d i => if d.2 then d.1.window - 1 - i else i) (List.zip c.windows c.reversal) w

variable {R : Type*} [CommRing R]

/-- The element of the operand at position `w` of window `o`, zero where it is padding. -/
def tap (lhs : Tensor R) (b f : Nat) (o w : List Nat) : R :=
  ((windowSource c.windows (c.dims.inputSpatial.map (coord lhs.shape)) o w).map fun p =>
    lhs.read (place c.dims.input (coord (b :: f :: p)))).getD 0

/-- The element of the result in batch `b` and feature `f`, for window `o`. -/
def element (lhs rhs : Tensor R) (b f : Nat) (o : List Nat) : R :=
  ∑ w ∈ indices (c.windows.map WindowDim.window), ∑ k ∈ range (coord rhs.shape c.dims.kernelInputFeature),
    c.tap lhs (c.batch lhs.shape rhs.shape b f) (c.feature rhs.shape f k) o w *
      rhs.read (place c.dims.kernel (coord (k :: f :: c.kernelPosition w)))

end Conv

variable {R : Type*} [CommRing R]

def convolution (c : Conv) (lhs rhs : Tensor R) : Option (Tensor R) :=
  if c.Ok lhs.shape rhs.shape then
    some ⟨c.shape lhs.shape rhs.shape, fun idx =>
      c.element lhs rhs (coord idx c.dims.outputBatch) (coord idx c.dims.outputFeature)
        (c.dims.outputSpatial.map (coord idx))⟩
  else none

section

variable {c : Conv} {lhs rhs y : Tensor R}

theorem exists_convolution (hok : c.Ok lhs.shape rhs.shape) : ∃ y, convolution c lhs rhs = some y := ⟨_, if_pos hok⟩

theorem read_convolution (h : convolution c lhs rhs = some y) : c.Ok lhs.shape rhs.shape ∧
    y.shape = c.shape lhs.shape rhs.shape ∧ ∀ u, Within y.shape u →
      y.read u = c.element lhs rhs (u c.dims.outputBatch) (u c.dims.outputFeature) (c.dims.outputSpatial.map u) := by
  obtain ⟨hok, h⟩ := Option.ite_none_right_eq_some.mp h
  cases h
  refine ⟨hok, rfl, fun u _ => ?_⟩
  have hcoord : ∀ d ∈ c.dims.output, coord ((List.range (c.shape lhs.shape rhs.shape).length).map u) d = u d := by
    intro d hd
    have hlt : d < lhs.shape.length := mem_range.mp (hok.output_perm.mem_iff.mp hd)
    have hlen : (c.shape lhs.shape rhs.shape).length = lhs.shape.length := by simp [Conv.shape]
    rw [coord_map_range _ (hlen.symm ▸ hlt)]
  have hspatial : c.dims.outputSpatial.map (coord ((List.range (c.shape lhs.shape rhs.shape).length).map u)) =
      c.dims.outputSpatial.map u := map_congr_left fun d hd => hcoord d (by simp [ConvDims.output, hd])
  change c.element lhs rhs _ _ _ = _
  rw [hspatial, hcoord _ (by simp [ConvDims.output]), hcoord _ (by simp [ConvDims.output])]

theorem length_convShape (lhs rhs : List Nat) : (c.shape lhs rhs).length = lhs.length := by simp [Conv.shape]

section

variable {lhs rhs : List Nat} (hok : c.Ok lhs rhs)

include hok

theorem coord_convShape {p : Nat} (hp : p < c.dims.output.length) :
    coord (c.shape lhs rhs) (coord c.dims.output p) = coord (c.outputSizes lhs rhs) p := by
  have hlt : coord c.dims.output p < lhs.length := by
    rw [coord_eq_getElem hp]
    exact mem_range.mp (hok.output_perm.mem_iff.mp (getElem_mem hp))
  rw [Conv.shape, coord_map_range _ hlt, coord_eq_getElem hp, place_getElem (hok.output_perm.nodup_iff.mpr nodup_range)]

theorem Conv.Ok.length_outputSpatial : c.dims.outputSpatial.length = c.dims.inputSpatial.length := by
  have hlen := hok.output_perm.length_eq.trans hok.input_perm.length_eq.symm
  simp only [ConvDims.output, ConvDims.input, length_cons] at hlen
  omega

theorem within_convShape {u : Nat → Nat} (hu : Within (c.shape lhs rhs) u) :
    u c.dims.outputBatch < coord lhs c.dims.inputBatch / c.batchGroups ∧
      u c.dims.outputFeature < coord rhs c.dims.kernelOutputFeature ∧ c.dims.outputSpatial.map u ∈
          indices (List.zipWith WindowDim.numWindows c.windows (c.dims.inputSpatial.map (coord lhs))) := by
  have hlen := hok.length_outputSpatial
  have hat : ∀ p < c.dims.output.length, u (coord c.dims.output p) < coord (c.outputSizes lhs rhs) p := by
    intro p hp
    rw [← coord_convShape hok hp]
    refine hu _ ?_
    rw [length_convShape, coord_eq_getElem hp]
    exact mem_range.mp (hok.output_perm.mem_iff.mp (getElem_mem hp))
  refine ⟨hat 0 (by simp [ConvDims.output]), hat 1 (by simp [ConvDims.output]), mem_indices_iff.mpr ⟨?_, fun d hd => ?_⟩⟩
  · rw [length_map, length_zipWith, length_map, hok.length_windows, min_self, hlen]
  · rw [length_zipWith, length_map, hok.length_windows, min_self, ← hlen] at hd
    have hlt := hat (d + 2) (by simp [ConvDims.output, hd])
    rw [coord_map _ _ hd, ← coord_eq_getElem hd]
    exact hlt

theorem exists_within_convShape {b f : Nat} {o : List Nat}
    (hb : b < coord lhs c.dims.inputBatch / c.batchGroups) (hf : f < coord rhs c.dims.kernelOutputFeature)
    (ho : o ∈ indices (List.zipWith WindowDim.numWindows c.windows (c.dims.inputSpatial.map (coord lhs)))) :
    Within (c.shape lhs rhs) (place c.dims.output (coord (b :: f :: o))) := by
  have hperm := hok.output_perm
  rw [← length_convShape (c := c) lhs rhs] at hperm
  refine within_place hperm fun p hp => ?_
  rw [← coord_eq_getElem hp, coord_convShape hok hp]
  rcases p with _ | _ | d
  · exact hb
  · exact hf
  · refine coord_lt ho ?_
    simp only [ConvDims.output, length_cons] at hp
    rw [length_zipWith, length_map, hok.length_windows, min_self, ← hok.length_outputSpatial]
    omega

end

theorem div_mul_add_lt {m n parts k f : Nat} (hparts : parts ∣ m) (hf : f < m) (hk : k < n) :
    f / (m / parts) * n + k < parts * n := by
  have hlt : f / (m / parts) < parts := Nat.div_lt_of_lt_mul (by rwa [Nat.div_mul_cancel hparts])
  calc f / (m / parts) * n + k < f / (m / parts) * n + n := by omega
    _ = (f / (m / parts) + 1) * n := by rw [Nat.succ_mul]
    _ ≤ parts * n := Nat.mul_le_mul_right n hlt

theorem Conv.Ok.batch_lt {lhs rhs : List Nat} (hok : c.Ok lhs rhs) {b f : Nat}
    (hb : b < coord lhs c.dims.inputBatch / c.batchGroups) (hf : f < coord rhs c.dims.kernelOutputFeature) :
    c.batch lhs rhs b f < coord lhs c.dims.inputBatch := by
  have hlt := div_mul_add_lt hok.output_features.2 hf hb
  rwa [Nat.mul_div_cancel' hok.batches] at hlt

theorem Conv.Ok.feature_lt {lhs rhs : List Nat} (hok : c.Ok lhs rhs) {k f : Nat}
    (hk : k < coord rhs c.dims.kernelInputFeature) (hf : f < coord rhs c.dims.kernelOutputFeature) :
    c.feature rhs f k < coord lhs c.dims.inputFeature := by
  rw [hok.features]
  exact div_mul_add_lt hok.output_features.1 hf hk

end

/-! ### Elements by what the dimensions are -/

section

variable {a b n : Nat} {spatial p : List Nat}

theorem place_dims (hperm : (a :: b :: spatial).Perm (range n)) (i j : Nat) (hp : p.length = spatial.length) :
    place (a :: b :: spatial) (coord (i :: j :: p)) a = i ∧ place (a :: b :: spatial) (coord (i :: j :: p)) b = j ∧
      spatial.map (place (a :: b :: spatial) (coord (i :: j :: p))) = p := by
  have hnodup : (a :: b :: spatial).Nodup := hperm.nodup_iff.mpr nodup_range
  have hat : ∀ k (hk : k < (a :: b :: spatial).length),
      place (a :: b :: spatial) (coord (i :: j :: p)) (a :: b :: spatial)[k] = coord (i :: j :: p) k :=
    fun k hk => place_getElem hnodup hk
  refine ⟨hat 0 (by simp), hat 1 (by simp), ext_getElem (by rw [length_map, hp]) fun k hk hk' => ?_⟩
  rw [length_map] at hk
  have heq := hat (k + 2) (by simpa using hk)
  rw [getElem_map]
  rw [coord_eq_getElem (by simpa using hk')] at heq
  exact heq

def markAt (R : Type*) [CommRing R] (shape : List Nat) (a b : Nat) (spatial : List Nat) (i j : Nat) (p : List Nat) :
    Tensor R :=
  ⟨shape, fun idx => if coord idx a = i ∧ coord idx b = j ∧ spatial.map (coord idx) = p then 1 else 0⟩

theorem read_markAt {shape : List Nat} (hperm : (a :: b :: spatial).Perm (range shape.length)) {i j i' j' : Nat}
    {p' : List Nat} (hp' : p'.length = spatial.length) :
    (markAt R shape a b spatial i j p).read (place (a :: b :: spatial) (coord (i' :: j' :: p'))) =
      if i' = i ∧ j' = j ∧ p' = p then 1 else 0 := by
  obtain ⟨ha, hb, hspatial⟩ := place_dims hperm i' j' hp'
  have hcoord : ∀ d ∈ a :: b :: spatial, coord ((List.range shape.length).map
      (place (a :: b :: spatial) (coord (i' :: j' :: p')))) d =
        place (a :: b :: spatial) (coord (i' :: j' :: p')) d := by
    intro d hd
    have hlt : d < shape.length := mem_range.mp (hperm.mem_iff.mp hd)
    rw [coord_map_range _ hlt]
  have hmap : spatial.map (coord ((List.range shape.length).map
      (place (a :: b :: spatial) (coord (i' :: j' :: p'))))) = p' :=
    (map_congr_left fun d hd => hcoord d (by simp [hd])).trans hspatial
  rw [Tensor.read, markAt]
  dsimp only
  rw [hmap, hcoord a (by simp), hcoord b (by simp), ha, hb]

end

section

variable {c : Conv} {lhs rhs : Tensor R} {kernel : List Nat}

theorem length_kernelPosition {input : List Nat} (hok : c.Ok input kernel) {w : List Nat}
    (hw : w.length = c.windows.length) : (c.kernelPosition w).length = c.dims.kernelSpatial.length := by
  have hsize := congrArg length hok.window_size
  rw [length_map, length_map] at hsize
  rw [Conv.kernelPosition, length_zipWith, length_zip, hok.length_reversal, hw, min_self, min_self, hsize]

theorem kernelPosition_congr {c' : Conv} (hwindow : c.windows.map WindowDim.window = c'.windows.map WindowDim.window)
    (hreversal : c.reversal = c'.reversal) (w : List Nat) : c.kernelPosition w = c'.kernelPosition w := by
  have hsizes : ∀ c : Conv, c.kernelPosition w = List.zipWith (fun d i => if d.2 then d.1 - 1 - i else i)
      (zip (c.windows.map WindowDim.window) c.reversal) w := by
    intro c
    rw [zip_map_left, zipWith_map_left]
    rfl
  rw [hsizes c, hsizes c', hwindow, hreversal]

theorem kernelPosition_inj (hreversal : c.reversal.length = c.windows.length) {w w' : List Nat}
    (hw : w ∈ indices (c.windows.map WindowDim.window)) (hw' : w' ∈ indices (c.windows.map WindowDim.window))
    (h : c.kernelPosition w = c.kernelPosition w') : w = w' := by
  have hlen := (length_of_mem_indices hw).trans (length_map _)
  have hlen' := (length_of_mem_indices hw').trans (length_map _)
  refine eq_of_coord (hlen.trans hlen'.symm) fun d hd => ?_
  have hd' : d < c.windows.length := hlen ▸ hd
  have hlt := coord_lt hw (d := d) (by rwa [length_map])
  have hlt' := coord_lt hw' (d := d) (by rwa [length_map])
  rw [coord_map _ _ hd'] at hlt hlt'
  have hat : ∀ w : List Nat, w.length = c.windows.length →
      coord (c.kernelPosition w) d = if c.reversal.getD d false then c.windows[d].window - 1 - coord w d else coord w d := by
    intro w hw
    rw [Conv.kernelPosition, coord_eq_getElem (by simp [hreversal, hw, hd']), getElem_zipWith, getElem_zip,
      getD_eq_getElem _ _ (hreversal.symm ▸ hd'), coord_eq_getElem (hw.symm ▸ hd')]
  have heq := congrArg (coord · d) h
  beta_reduce at heq
  rw [hat w hlen, hat w' hlen'] at heq
  split_ifs at heq <;> omega

theorem element_markAt (hok : c.Ok lhs.shape kernel) (hfeatures : 0 < coord kernel c.dims.kernelInputFeature)
    {b f : Nat} {o w : List Nat} (hw : w ∈ indices (c.windows.map WindowDim.window)) :
    c.element lhs (markAt R kernel c.dims.kernelInputFeature c.dims.kernelOutputFeature c.dims.kernelSpatial 0 f
      (c.kernelPosition w)) b f o = c.tap lhs (c.batch lhs.shape kernel b f) (c.feature kernel f 0) o w := by
  have hread : ∀ w' ∈ indices (c.windows.map WindowDim.window), ∀ k,
      (markAt R kernel c.dims.kernelInputFeature c.dims.kernelOutputFeature c.dims.kernelSpatial 0 f
        (c.kernelPosition w)).read (place c.dims.kernel (coord (k :: f :: c.kernelPosition w'))) =
          if k = 0 ∧ w' = w then 1 else 0 := by
    intro w' hw' k
    have hlen := length_kernelPosition hok ((length_of_mem_indices hw').trans (length_map _))
    rw [ConvDims.kernel, read_markAt hok.kernel_perm hlen]
    refine if_congr (and_congr_right fun _ => ⟨fun h => ?_, fun h => ⟨rfl, by rw [h]⟩⟩) rfl rfl
    exact kernelPosition_inj hok.length_reversal hw' hw h.2
  rw [Conv.element, sum_eq_single w]
  · change ∑ k ∈ range (coord kernel c.dims.kernelInputFeature), _ = _
    rw [sum_eq_single 0]
    · rw [hread w hw, if_pos ⟨rfl, rfl⟩, mul_one]
      rfl
    · intro k _ hk
      rw [hread w hw, if_neg fun h => hk h.1, mul_zero]
    · exact fun h => absurd (mem_range.mpr hfeatures) h
  · intro w' hw' hne
    refine sum_eq_zero fun k _ => ?_
    rw [hread w' hw', if_neg fun h => hne h.2, mul_zero]
  · exact fun h => absurd hw h

theorem read_convolution_markAt {y : Tensor R} {o w : List Nat}
    (h : convolution c lhs (markAt R kernel c.dims.kernelInputFeature c.dims.kernelOutputFeature c.dims.kernelSpatial
      0 0 (c.kernelPosition w)) = some y) (hbatch : 0 < coord lhs.shape c.dims.inputBatch)
    (houtput : 0 < coord kernel c.dims.kernelOutputFeature) (hinput : 0 < coord kernel c.dims.kernelInputFeature)
    (hw : w ∈ indices (c.windows.map WindowDim.window))
    (ho : o ∈ indices (List.zipWith WindowDim.numWindows c.windows (c.dims.inputSpatial.map (coord lhs.shape)))) :
    Within y.shape (place c.dims.output (coord (0 :: 0 :: o))) ∧
      y.read (place c.dims.output (coord (0 :: 0 :: o))) = c.tap lhs 0 0 o w := by
  obtain ⟨hok, hshape, hread⟩ := read_convolution h
  have hpos : 0 < coord lhs.shape c.dims.inputBatch / c.batchGroups :=
    Nat.div_pos (Nat.le_of_dvd hbatch hok.batches) hok.groups.2.1
  have holength : o.length = c.dims.outputSpatial.length := by
    rw [length_of_mem_indices ho, length_zipWith, length_map, hok.length_windows, min_self, hok.length_outputSpatial]
  obtain ⟨hb, hf, hspatial⟩ := place_dims hok.output_perm 0 0 holength
  have hu : Within y.shape (place c.dims.output (coord (0 :: 0 :: o))) := by
    rw [hshape]
    exact exists_within_convShape hok hpos houtput ho
  refine ⟨hu, ?_⟩
  have helement := element_markAt (R := R) (b := 0) (f := 0) (o := o) hok hinput hw
  rw [Conv.batch, Conv.feature, Nat.zero_div, zero_mul, Nat.zero_div, zero_mul] at helement
  rw [hread _ hu, ← helement, ConvDims.output, hb, hf, hspatial]
  rfl

end

end Tensor
