import EnzymeJax.Library.Separable

/-!
# Slices, pads and windows

The data-movement operations of StableHLO that act on each dimension by itself, with the conditions
under which they are well formed. Over a ring each of them is a separable linear map.
-/

namespace Tensor

open Finset List Option

/-! ### Slices -/

/-- A slice along one dimension. -/
structure SliceDim where
  start : Int
  limit : Int
  stride : Int

variable {d : SliceDim}

namespace SliceDim

def Ok (d : SliceDim) (dim : Nat) : Prop :=
  0 ≤ d.start ∧ d.start ≤ d.limit ∧ d.limit ≤ dim ∧ 0 < d.stride

instance (d : SliceDim) (dim : Nat) : Decidable (d.Ok dim) :=
  inferInstanceAs (Decidable (_ ∧ _ ∧ _ ∧ _))

/-- The number of elements, rounded up. -/
def size (d : SliceDim) : Nat := ((d.limit - d.start + d.stride - 1) / d.stride).toNat

def source (d : SliceDim) (o : Nat) : Nat := (d.start + o * d.stride).toNat

theorem size_of_unit (hstride : d.stride = 1) : d.size = (d.limit - d.start).toNat := by
  rw [size, hstride, Int.ediv_one, Int.add_sub_cancel]

theorem source_of_unit (hstride : d.stride = 1) (hstart : 0 ≤ d.start) (o : Nat) :
    d.source o = d.start.toNat + o := by
  rw [source, hstride]
  omega

end SliceDim

def slice {α : Type*} (ds : List SliceDim) (x : Tensor α) : Option (Tensor α) :=
  if List.Forall₂ SliceDim.Ok ds x.shape then
    some ⟨ds.map SliceDim.size, fun idx => x.get (List.zipWith SliceDim.source ds idx)⟩
  else none

/-! ### Pads -/

/-- The padding along one dimension: before, after, and between neighbouring elements. -/
structure PadDim where
  low : Int
  high : Int
  interior : Int

namespace PadDim

/-- The size with the interior padding alone. -/
def dilated (d : PadDim) (dim : Nat) : Int := dim + (dim - 1 : Nat) * d.interior

def size (d : PadDim) (dim : Nat) : Int := d.low + d.dilated dim + d.high

def Ok (d : PadDim) (dim : Nat) : Prop := 0 ≤ d.interior ∧ 0 ≤ d.size dim

instance (d : PadDim) (dim : Nat) : Decidable (d.Ok dim) :=
  inferInstanceAs (Decidable (_ ∧ _))

/-- The element at position `q` of the padded dimension, if it is not padding. -/
def source (d : PadDim) (dim : Nat) (q : Int) : Option Nat :=
  let p := q - d.low
  if 0 ≤ p ∧ d.interior + 1 ∣ p ∧ p / (d.interior + 1) < dim then
    some (p / (d.interior + 1)).toNat
  else none

end PadDim

def pad {α : Type*} (ds : List PadDim) (v : α) (x : Tensor α) : Option (Tensor α) :=
  if List.Forall₂ PadDim.Ok ds x.shape then
    some ⟨List.zipWith (fun d dim => (d.size dim).toNat) ds x.shape, fun idx =>
      ((allSome (List.zipWith3 (fun d dim (q : Nat) => d.source dim q) ds x.shape idx)).map x.get).getD v⟩
  else none

/-! ### Windows -/

/-- The windows along one dimension. -/
structure WindowDim where
  window : Nat
  stride : Nat
  baseDilation : Nat
  windowDilation : Nat
  padLow : Int
  padHigh : Int

namespace WindowDim

def Ok (d : WindowDim) : Prop :=
  0 < d.window ∧ 0 < d.stride ∧ 0 < d.baseDilation ∧ 0 < d.windowDilation

instance (d : WindowDim) : Decidable d.Ok := inferInstanceAs (Decidable (_ ∧ _ ∧ _ ∧ _))

/-- The padding and base dilation a window slides over. -/
def padding (d : WindowDim) : PadDim := ⟨d.padLow, d.padHigh, d.baseDilation - 1⟩

def dilatedWindow (d : WindowDim) : Int := (d.window - 1 : Nat) * d.windowDilation + 1

def numWindows (d : WindowDim) (dim : Nat) : Nat :=
  let padded := d.padding.size dim
  if padded = 0 ∨ padded < d.dilatedWindow then 0
  else ((padded - d.dilatedWindow) / d.stride + 1).toNat

/-- The element under position `w` of window `o`, if it is not padding. -/
def source (d : WindowDim) (dim o w : Nat) : Option Nat :=
  d.padding.source dim (o * d.stride + w * d.windowDilation)

end WindowDim

/-- The sums over the windows, with init value zero. -/
def reduceWindow {R : Type*} [AddCommMonoid R] (ds : List WindowDim) (x : Tensor R) :
    Option (Tensor R) :=
  if ds.length = x.shape.length ∧ ∀ d ∈ ds, d.Ok then
    some ⟨List.zipWith WindowDim.numWindows ds x.shape, fun idx =>
      ∑ w ∈ indices (ds.map WindowDim.window),
        ((allSome (List.zipWith (fun p q => p.1.source p.2 q.1 q.2) (List.zip ds x.shape)
          (List.zip idx w))).map x.get).getD 0⟩
  else none

/-! ### The matrices -/

section

variable {R : Type*} [CommRing R]

def SliceDim.kernel (d : SliceDim) (dim : Nat) : Kernel R :=
  ⟨d.size, dim, fun o i => if some (d.source o) = some i then 1 else 0⟩

def PadDim.kernel (d : PadDim) (dim : Nat) : Kernel R :=
  ⟨(d.size dim).toNat, dim, fun q i => if d.source dim q = some i then 1 else 0⟩

def WindowDim.kernel (d : WindowDim) (dim : Nat) : Kernel R :=
  ⟨d.numWindows dim, dim, fun o i => ∑ w ∈ range d.window, if d.source dim o w = some i then 1 else 0⟩

def WindowDim.kernelAt (d : WindowDim) (dim w : Nat) : Kernel R :=
  ⟨d.numWindows dim, dim, fun o i => if d.source dim o w = some i then 1 else 0⟩

theorem SliceDim.source_lt {dim o : Nat} (hd : d.Ok dim) (ho : o < d.size) : d.source o < dim := by
  obtain ⟨hstart, -, hlimit, hstride⟩ := hd
  have hlast : (o : Int) + 1 ≤ (d.limit - d.start + d.stride - 1) / d.stride := by
    rw [SliceDim.size] at ho
    omega
  have hmul := Int.mul_le_of_le_ediv hstride hlast
  rw [add_mul, one_mul] at hmul
  have hoffset : 0 ≤ (o : Int) * d.stride := mul_nonneg (by omega) hstride.le
  rw [SliceDim.source]
  omega

theorem PadDim.source_eq_some {d : PadDim} {dim i : Nat} {q : Int} (hd : 0 ≤ d.interior) :
    d.source dim q = some i ↔ i < dim ∧ q = d.low + i * (d.interior + 1) := by
  have hpos : 0 < d.interior + 1 := by omega
  simp only [PadDim.source]
  constructor
  · intro h
    split at h
    · rename_i hok
      obtain ⟨hnonneg, hdvd, hlt⟩ := hok
      have hquot := Int.ediv_nonneg hnonneg hpos.le
      have hmul := Int.ediv_mul_cancel hdvd
      cases h
      rw [Int.toNat_of_nonneg hquot, hmul]
      omega
    · cases h
  · rintro ⟨hi, rfl⟩
    rw [add_sub_cancel_left, Int.mul_ediv_cancel _ hpos.ne',
      if_pos ⟨by positivity, Int.dvd_mul_left _ _, by omega⟩, Int.toNat_natCast]

variable {shape idx w : List Nat} {x t : Tensor R}

theorem selects_slice {ds : List SliceDim} (hds : Forall₂ SliceDim.Ok ds shape)
    (hidx : idx ∈ indices (ds.map SliceDim.size)) :
    Kernel.Selects (R := R) (List.zipWith SliceDim.kernel ds shape) idx
      ((List.zipWith SliceDim.source ds idx).map some) := by
  induction hds generalizing idx with
  | nil =>
    obtain rfl := mem_indices_nil.mp hidx
    exact .nil
  | cons hd _ ih =>
    obtain ⟨o, ho, os, hos, rfl⟩ := mem_indices_cons.mp hidx
    refine .cons (fun i _ => rfl) (fun j hj => ?_) (ih hos)
    cases hj
    exact SliceDim.source_lt hd ho

theorem selects_pad {ds : List PadDim} (hds : Forall₂ PadDim.Ok ds shape)
    (hidx : idx ∈ indices (List.zipWith (fun d dim => (d.size dim).toNat) ds shape)) :
    Kernel.Selects (R := R) (List.zipWith PadDim.kernel ds shape) idx
      (zipWith3 (fun d dim (q : Nat) => d.source dim q) ds shape idx) := by
  induction hds generalizing idx with
  | nil =>
    obtain rfl := mem_indices_nil.mp hidx
    exact .nil
  | cons hd _ ih =>
    obtain ⟨q, -, qs, hqs, rfl⟩ := mem_indices_cons.mp hidx
    exact .cons (fun i _ => rfl) (fun j hj => ((PadDim.source_eq_some hd.1).mp hj).1) (ih hqs)

theorem slice_get {ds : List SliceDim} (ht : slice ds x = some t) :
    t.shape = ds.map SliceDim.size ∧ ∀ idx ∈ indices t.shape,
      t.get idx = (Kernel.apply (List.zipWith SliceDim.kernel ds x.shape) x).get idx := by
  rw [slice] at ht
  split at ht
  · rename_i hds
    cases ht
    refine ⟨rfl, fun idx hidx => ?_⟩
    rw [(selects_slice hds hidx).apply_get, allSome_map_some]
    rfl
  · cases ht

theorem pad_get {ds : List PadDim} (ht : pad ds 0 x = some t) :
    t.shape = List.zipWith (fun d dim => (d.size dim).toNat) ds x.shape ∧ ∀ idx ∈ indices t.shape,
        t.get idx = (Kernel.apply (List.zipWith PadDim.kernel ds x.shape) x).get idx := by
  rw [pad] at ht
  split at ht
  · rename_i hds
    cases ht
    exact ⟨rfl, fun idx hidx => (selects_pad hds hidx).apply_get x ▸ rfl⟩
  · cases ht

variable {ds : List WindowDim}

theorem selects_window (hds : ∀ d ∈ ds, d.Ok) (hshape : ds.length = shape.length)
    (hidx : idx.length = ds.length) (hw : w.length = ds.length) :
    Kernel.Selects (R := R) (List.zipWith (fun p w => p.1.kernelAt p.2 w) (zip ds shape) w) idx
      (List.zipWith (fun p q => p.1.source p.2 q.1 q.2) (zip ds shape) (zip idx w)) := by
  induction ds generalizing shape idx w with
  | nil =>
    obtain rfl := length_eq_zero_iff.mp hidx
    exact .nil
  | cons d ds ih =>
    obtain ⟨dim, shape, rfl⟩ := exists_cons_of_length_eq_add_one hshape.symm
    obtain ⟨o, os, rfl⟩ := exists_cons_of_length_eq_add_one hidx
    obtain ⟨w, ws, rfl⟩ := exists_cons_of_length_eq_add_one hw
    obtain ⟨hd, hds⟩ := forall_mem_cons.mp hds
    refine .cons (fun i _ => rfl) (fun j hj => ?_) (ih hds (add_right_cancel hshape)
      (add_right_cancel hidx) (add_right_cancel hw))
    have hinterior : 0 ≤ d.padding.interior := by
      have hbase := hd.2.2.1
      change (0 : Int) ≤ d.baseDilation - 1
      omega
    exact ((PadDim.source_eq_some hinterior).mp hj).1

theorem coeff_window {o i : List Nat} (hshape : ds.length = shape.length) (ho : o.length = ds.length)
    (hi : i.length = ds.length) : Kernel.coeff (R := R) (List.zipWith WindowDim.kernel ds shape) o i =
      ∑ w ∈ indices (ds.map WindowDim.window), Kernel.coeff
        (List.zipWith (fun p w => p.1.kernelAt p.2 w) (zip ds shape) w) o i := by
  induction ds generalizing shape o i with
  | nil => simp [Kernel.coeff, indices]
  | cons d ds ih =>
    obtain ⟨dim, shape, rfl⟩ := exists_cons_of_length_eq_add_one hshape.symm
    obtain ⟨o, os, rfl⟩ := exists_cons_of_length_eq_add_one ho
    obtain ⟨i, is, rfl⟩ := exists_cons_of_length_eq_add_one hi
    rw [zipWith_cons_cons, Kernel.coeff, ih (add_right_cancel hshape)
      (Nat.add_right_cancel ho) (Nat.add_right_cancel hi), List.map_cons, sum_indices_cons,
      WindowDim.kernel, sum_mul_sum]
    rfl

theorem map_cols_kernelAt (hshape : ds.length = shape.length) (hw : w.length = ds.length) :
    (List.zipWith (fun p w => (p.1.kernelAt p.2 w : Kernel R)) (zip ds shape) w).map
      Kernel.cols = shape := by
  induction ds generalizing shape w with
  | nil => exact (length_eq_zero_iff.mp hshape.symm).symm
  | cons d ds ih =>
    obtain ⟨dim, shape, rfl⟩ := exists_cons_of_length_eq_add_one hshape.symm
    obtain ⟨w, ws, rfl⟩ := exists_cons_of_length_eq_add_one hw
    exact congrArg (dim :: ·) (ih (add_right_cancel hshape) (add_right_cancel hw))

omit [CommRing R] in
theorem map_cols_zipWith {δ : Type*} (kernel : δ → Nat → Kernel R) (hcols : ∀ d dim, (kernel d dim).cols = dim)
    {ds : List δ} (hshape : ds.length = shape.length) : (List.zipWith kernel ds shape).map Kernel.cols = shape := by
  induction ds generalizing shape with
  | nil => exact (length_eq_zero_iff.mp hshape.symm).symm
  | cons d ds ih =>
    obtain ⟨dim, shape, rfl⟩ := exists_cons_of_length_eq_add_one hshape.symm
    rw [zipWith_cons_cons, List.map_cons, hcols, ih (Nat.add_right_cancel hshape)]

theorem reduceWindow_get (ht : reduceWindow ds x = some t) :
    t.shape = List.zipWith WindowDim.numWindows ds x.shape ∧ ∀ idx ∈ indices t.shape,
      t.get idx = (Kernel.apply (List.zipWith WindowDim.kernel ds x.shape) x).get idx := by
  rw [reduceWindow] at ht
  split at ht
  · rename_i hok
    obtain ⟨hlen, hds⟩ := hok
    cases ht
    refine ⟨rfl, fun idx hidx => ?_⟩
    have hidx' : idx.length = ds.length := by
      rw [length_of_mem_indices hidx, length_zipWith, ← hlen, min_self]
    have hread : ∀ w ∈ indices (ds.map WindowDim.window),
        ((allSome (List.zipWith (fun p q => p.1.source p.2 q.1 q.2) (zip ds x.shape) (zip idx w))).map x.get).getD 0 =
        ∑ i ∈ indices x.shape, Kernel.coeff
          (List.zipWith (fun p w => p.1.kernelAt p.2 w) (zip ds x.shape) w) idx i * x.get i := by
      intro w hw
      have hw' : w.length = ds.length := by rw [length_of_mem_indices hw, length_map]
      rw [← (selects_window hds hlen hidx' hw').apply_get, Kernel.apply, map_cols_kernelAt hlen hw']
    change ∑ w ∈ indices (ds.map WindowDim.window), _ = _
    rw [sum_congr rfl hread, sum_comm, Kernel.apply, map_cols_zipWith WindowDim.kernel (fun _ _ => rfl) hlen]
    refine sum_congr rfl fun i hi => ?_
    rw [coeff_window hlen hidx' ((length_of_mem_indices hi).trans hlen.symm), sum_mul]
  · cases ht

end

end Tensor
