import EnzymeJax.Library.DataMovement

/-!
# The reverse rules of slice and add-reduce_window

`AutoDiffSliceRev` pads the cotangent back and `AutoDiffReduceWindowRev` slides the windows over the padded cotangent.
The rule of a slice pads to the right extent only where the last element is the one before the limit.
-/

namespace EnzymeJax

open Tensor Finset Option
open List hiding mem_range

/-! ### The rules -/

/-- The padding `AutoDiffSliceRev` builds for a dimension of the operand. -/
def slicePadding (d : SliceDim) (dim : Nat) : PadDim := ⟨d.start, dim - d.limit, d.stride - 1⟩

/-- `AutoDiffSliceRev`: the operation built has no declared type. -/
def reverseSlice {R : Type*} [Zero R] (ds : List SliceDim) (inShape : List Nat)
    (inDiffe : Tensor R) : Option (Tensor R) :=
  pad (List.zipWith slicePadding ds inShape) 0 inDiffe

def dilateShape (shape dilation : Int) : Int :=
  if dilation = 1 then shape
  else
    let dilated := 1 + dilation * (shape - 1)
    if dilated < 0 then 0 else dilated

/-- The padding `AutoDiffReduceWindowRev` builds for the cotangent. -/
def windowPadding (d : WindowDim) (dim : Nat) : PadDim :=
  let lhsShape := dilateShape dim d.baseDilation
  let rhsShape := dilateShape d.window d.windowDilation
  let outShape := dilateShape (d.numWindows dim) d.stride
  let newPadBefore := rhsShape - d.padLow - 1
  ⟨newPadBefore, lhsShape + rhsShape - 1 - outShape - newPadBefore, d.stride - 1⟩

/-- The windows that slide over the padded cotangent: the stride is the base dilation. -/
def reverseWindow (d : WindowDim) : WindowDim :=
  ⟨d.window, d.baseDilation, 1, d.windowDilation, 0, 0⟩

/-- `AutoDiffReduceWindowRev` for an addition: the operation built has the operand's type. -/
def reverseReduceWindow {R : Type*} [AddCommMonoid R] (ds : List WindowDim) (operandShape : List Nat)
    (inDiffe : Tensor R) : Option (Tensor R) := do
  let paddedIndiffe ← pad (List.zipWith windowPadding ds operandShape) 0 inDiffe
  let revOp ← reduceWindow (ds.map reverseWindow) paddedIndiffe
  if revOp.shape = operandShape then some revOp else none

/-! ### Slice -/

/-- The elements end where the slice does: the last one is right before the limit. -/
def SliceDim.Aligned (d : SliceDim) : Prop :=
  d.limit = d.start ∨ d.stride ∣ d.limit - d.start - 1

instance (d : SliceDim) : Decidable (SliceDim.Aligned d) := inferInstanceAs (Decidable (_ ∨ _))

section

variable {d : SliceDim} {dim : Nat} (hd : d.Ok dim)

include hd

theorem slice_size : (d.size : Int) = if d.limit = d.start then 0 else (d.limit - d.start - 1) / d.stride + 1 := by
  obtain ⟨-, horder, -, hstride⟩ := hd
  rw [SliceDim.size]
  split
  · rename_i heq
    rw [heq, Int.ediv_eq_zero_of_lt (by omega) (by omega)]
    rfl
  · rename_i hne
    have hquot := Int.ediv_nonneg (show 0 ≤ d.limit - d.start - 1 by omega) hstride.le
    rw [show d.limit - d.start + d.stride - 1 = d.limit - d.start - 1 + d.stride by omega,
      Int.add_ediv_of_dvd_right (dvd_refl _), Int.ediv_self hstride.ne', Int.toNat_of_nonneg]
    omega

theorem slicePadding_size : (slicePadding d dim).size d.size =
      if d.limit = d.start then (dim : Int) else dim - (d.limit - d.start - 1) % d.stride := by
  have hsize := slice_size hd
  simp only [slicePadding, PadDim.size, PadDim.dilated]
  split
  · rename_i heq
    rw [if_pos heq] at hsize
    rw [Int.natCast_eq_zero.mp hsize, heq]
    push_cast
    ring
  · rename_i hne
    rw [if_neg hne] at hsize
    have hle := hd.2.1
    have hquot := Int.ediv_nonneg (show 0 ≤ d.limit - d.start - 1 by omega) hd.2.2.2.le
    have hpred : ((d.size - 1 : Nat) : Int) = (d.limit - d.start - 1) / d.stride := by omega
    have hmod := Int.emod_add_mul_ediv (d.limit - d.start - 1) d.stride
    rw [hpred, hsize]
    linarith

theorem slicePadding_ok : (slicePadding d dim).Ok d.size := by
  have hsize := slicePadding_size hd
  obtain ⟨hstart, horder, hlimit, hstride⟩ := hd
  refine ⟨Int.sub_nonneg_of_le hstride, ?_⟩
  rw [hsize]
  split
  · exact Int.natCast_nonneg dim
  · rename_i hne
    have hmod := Int.emod_add_mul_ediv (d.limit - d.start - 1) d.stride
    have hquot := Int.ediv_nonneg (show 0 ≤ d.limit - d.start - 1 by omega) hstride.le
    have hmul := mul_nonneg hstride.le hquot
    omega

theorem slicePadding_size_eq_iff : (slicePadding d dim).size d.size = dim ↔ SliceDim.Aligned d := by
  rw [slicePadding_size hd, SliceDim.Aligned, Int.dvd_iff_emod_eq_zero]
  split
  · rename_i heq
    exact ⟨fun _ => .inl heq, fun _ => rfl⟩
  · rename_i hne
    rw [or_iff_right hne]
    omega

end

variable {R : Type*}

theorem slicePadding_kernel {d : SliceDim} {dim : Nat} [CommRing R] (hd : d.Ok dim)
    (hsize : (slicePadding d dim).size d.size = dim) :
    Kernel.Agree ((slicePadding d dim).kernel d.size : Kernel R) (d.kernel dim).transpose := by
  refine ⟨?_, rfl, fun i _ o ho => ?_⟩
  · change ((slicePadding d dim).size d.size).toNat = dim
    rw [hsize, Int.toNat_natCast]
  · obtain ⟨hstart, -, -, hstride⟩ := hd
    have hoffset : 0 ≤ (o : Int) * d.stride := mul_nonneg (by omega) hstride.le
    have hinterior : 0 ≤ (slicePadding d dim).interior := Int.sub_nonneg_of_le hstride
    change (if _ then (1 : R) else 0) = if _ then (1 : R) else 0
    refine if_congr ?_ rfl rfl
    rw [PadDim.source_eq_some hinterior, some.injEq, SliceDim.source]
    simp only [slicePadding, sub_add_cancel]
    change o < d.size at ho
    omega

variable {shape : List Nat}

variable {ds : List SliceDim}

theorem slicePadding_forall₂ (hds : Forall₂ SliceDim.Ok ds shape) :
    Forall₂ PadDim.Ok (zipWith slicePadding ds shape) (ds.map SliceDim.size) := by
  induction hds with
  | nil => exact .nil
  | cons hd _ ih => exact .cons (slicePadding_ok hd) ih

theorem slicePadding_shape (hds : Forall₂ SliceDim.Ok ds shape) :
    List.zipWith (fun d dim => (d.size dim).toNat) (List.zipWith slicePadding ds shape)
      (ds.map SliceDim.size) = shape ↔ ∀ d ∈ ds, SliceDim.Aligned d := by
  induction hds with
  | nil => simp
  | @cons d dim ds shape hd _ ih =>
    have hok := (slicePadding_ok hd).2
    have hcast : ((slicePadding d dim).size d.size).toNat = dim ↔ (slicePadding d dim).size d.size = dim := by omega
    simp only [zipWith_cons_cons, List.map_cons, List.cons.injEq, List.forall_mem_cons, ih,
      hcast, slicePadding_size_eq_iff hd]

theorem slicePadding_agree [CommRing R] (hds : Forall₂ SliceDim.Ok ds shape) (haligned : ∀ d ∈ ds, SliceDim.Aligned d) :
    Forall₂ Kernel.Agree
      (zipWith PadDim.kernel (zipWith slicePadding ds shape) (ds.map SliceDim.size))
      ((zipWith SliceDim.kernel ds shape).map (Kernel.transpose (R := R))) := by
  induction hds with
  | nil => exact .nil
  | cons hd _ ih =>
    obtain ⟨hfirst, hrest⟩ := forall_mem_cons.mp haligned
    exact .cons (slicePadding_kernel hd ((slicePadding_size_eq_iff hd).mpr hfirst)) (ih hrest)

theorem map_rows_slice [CommRing R] (hds : Forall₂ SliceDim.Ok ds shape) :
    (zipWith SliceDim.kernel ds shape : List (Kernel R)).map Kernel.rows = ds.map SliceDim.size := by
  induction hds with
  | nil => rfl
  | cons _ _ ih => exact congrArg _ ih

theorem reverseSlice_shape [Zero R]
    (hds : Forall₂ SliceDim.Ok ds shape) {y : Tensor R} (hy : y.shape = ds.map SliceDim.size) :
    ∃ b, reverseSlice ds shape y = some b ∧ (b.shape = shape ↔ ∀ d ∈ ds, SliceDim.Aligned d) := by
  rw [reverseSlice, pad, hy, if_pos (slicePadding_forall₂ hds)]
  exact ⟨_, rfl, slicePadding_shape hds⟩

theorem dot_reverseSlice [CommRing R] {x t y b : Tensor R}
    (haligned : ∀ d ∈ ds, SliceDim.Aligned d) (ht : Tensor.slice ds x = some t)
    (hy : y.shape = t.shape) (hb : reverseSlice ds x.shape y = some b) : dot t y = dot x b := by
  have hds : Forall₂ SliceDim.Ok ds x.shape := by
    by_contra hds
    rw [Tensor.slice, if_neg hds] at ht
    cases ht
  obtain ⟨hshape, hget⟩ := slice_get ht
  obtain ⟨hshape', hget'⟩ := pad_get hb
  rw [hy, hshape] at hshape' hget'
  rw [(slicePadding_shape hds).mpr haligned] at hshape'
  rw [hshape'] at hget'
  have hrows := map_rows_slice (R := R) hds
  exact Kernel.dot_eq_of_agree (map_cols_zipWith SliceDim.kernel (fun _ _ => rfl)
    hds.length_eq).symm (hshape.trans hrows.symm) hget (slicePadding_agree hds haligned) hget'

/-! ### Add-reduce_window -/

theorem dilateShape_natCast (n : Nat) {dilation : Nat} (hdilation : 0 < dilation) :
    dilateShape n dilation = n + (n - 1 : Nat) * ((dilation : Int) - 1) := by
  rw [dilateShape]
  split
  · rename_i hone
    rw [hone, sub_self, mul_zero, add_zero]
  · rename_i hne
    cases n with
    | zero =>
      simp only [Nat.cast_zero, zero_sub, mul_neg, mul_one, Nat.zero_sub, zero_mul, add_zero]
      rw [if_pos (by omega)]
    | succ n =>
      have hnonneg : 0 ≤ (dilation : Int) * n := by positivity
      simp only [Nat.cast_add, Nat.cast_one, add_sub_cancel_right, Nat.add_sub_cancel]
      rw [if_neg (by omega)]
      ring

section

variable {d : WindowDim}

theorem windowPadding_size (hd : d.Ok) (dim : Nat) : (windowPadding d dim).size (d.numWindows dim) =
      dim + (dim - 1 : Nat) * ((d.baseDilation : Int) - 1) + (d.window - 1 : Nat) * (d.windowDilation : Int) := by
  obtain ⟨hwindow, hstride, hbase, hdilation⟩ := hd
  have hcast : (d.window : Int) = (d.window - 1 : Nat) + 1 := by omega
  simp only [windowPadding, PadDim.size, PadDim.dilated, dilateShape_natCast _ hbase,
    dilateShape_natCast _ hstride, dilateShape_natCast _ hdilation]
  rw [hcast]
  ring

theorem windowPadding_low (hd : d.Ok) (dim : Nat) :
    (windowPadding d dim).low = (d.window - 1 : Nat) * (d.windowDilation : Int) - d.padLow := by
  have hcast : (d.window : Int) = (d.window - 1 : Nat) + 1 := by
    have hwindow := hd.1
    omega
  simp only [windowPadding, dilateShape_natCast _ hd.2.2.2]
  rw [hcast]
  ring

theorem windowPadding_ok (hd : d.Ok) (dim : Nat) : (windowPadding d dim).Ok (d.numWindows dim) := by
  have hbase : (0 : Int) ≤ d.baseDilation - 1 := by
    have hpos := hd.2.2.1
    omega
  refine ⟨?_, ?_⟩
  · change (0 : Int) ≤ d.stride - 1
    have hpos := hd.2.1
    omega
  · rw [windowPadding_size hd]
    positivity

theorem reverseWindow_ok (hd : d.Ok) : (reverseWindow d).Ok :=
  ⟨hd.1, hd.2.2.1, one_pos, hd.2.2.2⟩

theorem reverseWindow_numWindows (hd : d.Ok) (dim : Nat) :
    (reverseWindow d).numWindows ((windowPadding d dim).size (d.numWindows dim)).toNat = dim := by
  have hsize := windowPadding_size hd dim
  have hok := (windowPadding_ok hd dim).2
  obtain ⟨hwindow, hstride, hbase, hdilation⟩ := hd
  generalize (windowPadding d dim).size (d.numWindows dim) = size at hsize hok
  have hpadded : (reverseWindow d).padding.size size.toNat = size := by
    simp only [WindowDim.padding, reverseWindow, PadDim.size, PadDim.dilated]
    push_cast
    omega
  have hwindow' : (reverseWindow d).dilatedWindow = (d.window - 1 : Nat) * d.windowDilation + 1 := rfl
  have hnonneg : (0 : Int) ≤ (d.window - 1 : Nat) * (d.windowDilation : Int) := by positivity
  rw [WindowDim.numWindows, hpadded, hwindow', hsize]
  cases dim with
  | zero =>
    rw [if_pos]
    simp
  | succ dim =>
    have hcount : ((dim + 1 : Nat) : Int) + (dim + 1 - 1 : Nat) * ((d.baseDilation : Int) - 1) =
        dim * d.baseDilation + 1 := by
      push_cast
      ring
    have hmul : (0 : Int) ≤ dim * (d.baseDilation : Int) := by positivity
    rw [hcount, if_neg (by omega), show (dim : Int) * d.baseDilation + 1 +
      (d.window - 1 : Nat) * d.windowDilation - ((d.window - 1 : Nat) * d.windowDilation + 1) =
        dim * d.baseDilation by ring]
    change ((dim : Int) * d.baseDilation / d.baseDilation + 1).toNat = dim + 1
    rw [Int.mul_ediv_cancel _ (by omega)]
    omega

theorem reverseWindow_source (size i w q : Nat) : (reverseWindow d).source size i w = some q ↔
      q < size ∧ (q : Int) = i * d.baseDilation + w * d.windowDilation := by
  rw [WindowDim.source, PadDim.source_eq_some (le_refl _)]
  refine and_congr_right fun _ => ?_
  change (i : Int) * d.baseDilation + w * d.windowDilation = 0 + q * (0 + 1) ↔ _
  rw [zero_add, zero_add, mul_one, eq_comm]

theorem window_source (hd : d.Ok) (dim o w i : Nat) :
    d.source dim o w = some i ↔
      i < dim ∧ (o : Int) * d.stride + w * d.windowDilation = d.padLow + i * d.baseDilation := by
  have hbase := hd.2.2.1
  have hinterior : 0 ≤ d.padding.interior := by
    change (0 : Int) ≤ d.baseDilation - 1
    omega
  rw [WindowDim.source, PadDim.source_eq_some hinterior]
  change _ ∧ _ = d.padLow + (i : Int) * ((d.baseDilation : Int) - 1 + 1) ↔ _
  rw [sub_add_cancel]

theorem windowPadding_source (hd : d.Ok) {dim i o w : Nat} (hi : i < dim)
    (ho : o < d.numWindows dim) (hw : w < d.window) :
    (windowPadding d dim).source (d.numWindows dim)
        (i * d.baseDilation + (d.window - 1 - w : Nat) * d.windowDilation) = some o ↔
      d.source dim o w = some i := by
  rw [PadDim.source_eq_some (windowPadding_ok hd dim).1, window_source hd, windowPadding_low hd,
    and_iff_right ho, and_iff_right hi]
  change _ = _ + (o : Int) * ((d.stride : Int) - 1 + 1) ↔ _
  have hcast : ((d.window - 1 - w : Nat) : Int) = (d.window - 1 : Nat) - w := by omega
  rw [hcast, sub_add_cancel, sub_mul]
  constructor <;> intro h <;> linarith

theorem reverse_position_lt (hd : d.Ok) {dim i w : Nat} (hi : i < dim) (hw : w < d.window) :
    i * d.baseDilation + w * d.windowDilation < ((windowPadding d dim).size (d.numWindows dim)).toNat := by
  have hfirst : i * d.baseDilation ≤ (dim - 1) * d.baseDilation :=
    Nat.mul_le_mul_right _ (by omega)
  have hsecond : w * d.windowDilation ≤ (d.window - 1) * d.windowDilation :=
    Nat.mul_le_mul_right _ (by omega)
  have hcast : ((dim - 1 : Nat) : Int) * ((d.baseDilation : Int) - 1) =
      ((dim - 1) * d.baseDilation : Nat) - (dim - 1 : Nat) := by
    push_cast
    ring
  rw [windowPadding_size hd, hcast]
  have hcast' : ((d.window - 1 : Nat) : Int) * (d.windowDilation : Int) =
      ((d.window - 1) * d.windowDilation : Nat) := by
    push_cast
    ring
  rw [hcast']
  omega

theorem reverseWindow_kernel [CommRing R] (hd : d.Ok) (dim : Nat) :
    Kernel.Agree
      (Kernel.comp ((reverseWindow d).kernel ((windowPadding d dim).size (d.numWindows dim)).toNat)
        ((windowPadding d dim).kernel (d.numWindows dim)) : Kernel R)
      (d.kernel dim).transpose := by
  refine ⟨reverseWindow_numWindows hd dim, rfl, fun i hi o ho => ?_⟩
  have hi' : i < dim := (reverseWindow_numWindows hd dim) ▸ hi
  change o < d.numWindows dim at ho
  simp only [Kernel.comp, Kernel.transpose, WindowDim.kernel, PadDim.kernel, sum_mul]
  rw [sum_comm, ← sum_range_reflect]
  refine sum_congr rfl fun w hw => ?_
  have hw := mem_range.mp hw
  have hlt := reverse_position_lt hd hi' (show d.window - 1 - w < d.window by omega)
  rw [sum_eq_single_of_mem _ (mem_range.mpr hlt)]
  · have hread : (reverseWindow d).source ((windowPadding d dim).size (d.numWindows dim)).toNat i
        ((reverseWindow d).window - 1 - w) = some (i * d.baseDilation + (d.window - 1 - w) * d.windowDilation) :=
      (reverseWindow_source ..).mpr ⟨hlt, by push_cast; rfl⟩
    have hsrc := windowPadding_source hd hi' ho hw
    rw [if_pos hread, one_mul]
    refine if_congr ?_ rfl rfl
    rw [← hsrc]
    push_cast
    rfl
  · intro q _ hne
    rw [if_neg, zero_mul]
    intro hq
    have heq := ((reverseWindow_source ..).mp hq).2
    apply hne
    zify
    exact heq

end

theorem reverseReduceWindow_shape [AddCommMonoid R] {ds : List WindowDim} (hds : ∀ d ∈ ds, d.Ok)
    (hlen : ds.length = shape.length) {y : Tensor R} (hy : y.shape = List.zipWith WindowDim.numWindows ds shape) :
    ∃ b, reverseReduceWindow ds shape y = some b ∧ b.shape = shape := by
  have hpadOk : Forall₂ PadDim.Ok (List.zipWith windowPadding ds shape)
      (List.zipWith WindowDim.numWindows ds shape) := by
    clear hy
    induction ds generalizing shape with
    | nil => exact .nil
    | cons d ds ih =>
      obtain ⟨dim, shape, rfl⟩ := exists_cons_of_length_eq_add_one hlen.symm
      obtain ⟨hd, hds⟩ := List.forall_mem_cons.mp hds
      exact .cons (windowPadding_ok hd dim) (ih hds (Nat.add_right_cancel hlen))
  have hshape : List.zipWith WindowDim.numWindows (ds.map reverseWindow)
      (List.zipWith (fun d dim => (d.size dim).toNat) (List.zipWith windowPadding ds shape)
        (List.zipWith WindowDim.numWindows ds shape)) = shape := by
    clear hy hpadOk
    induction ds generalizing shape with
    | nil => exact (length_eq_zero_iff.mp hlen.symm).symm
    | cons d ds ih =>
      obtain ⟨dim, shape, rfl⟩ := exists_cons_of_length_eq_add_one hlen.symm
      obtain ⟨hd, hds⟩ := List.forall_mem_cons.mp hds
      simp only [List.map_cons, zipWith_cons_cons, reverseWindow_numWindows hd, ih hds (Nat.add_right_cancel hlen)]
  have hwindowsOk : ∀ d ∈ ds.map reverseWindow, d.Ok := by
    intro d' hd'
    obtain ⟨d, hd, rfl⟩ := List.mem_map.mp hd'
    exact reverseWindow_ok (hds d hd)
  rw [reverseReduceWindow, pad, hy, if_pos hpadOk, bind_eq_bind, bind_some,
    reduceWindow, if_pos ⟨by simp [hlen], hwindowsOk⟩, bind_some, if_pos hshape]
  exact ⟨_, rfl, hshape⟩

theorem reverseWindow_agree [CommRing R] {ds : List WindowDim}
    (hds : ∀ d ∈ ds, d.Ok) (hlen : ds.length = shape.length) :
    Forall₂ Kernel.Agree
      (zipWith Kernel.comp (zipWith WindowDim.kernel (ds.map reverseWindow)
          (zipWith (fun d dim => (d.size dim).toNat) (zipWith windowPadding ds shape)
            (zipWith WindowDim.numWindows ds shape)))
        (zipWith PadDim.kernel (zipWith windowPadding ds shape) (zipWith WindowDim.numWindows ds shape)))
      ((zipWith WindowDim.kernel ds shape).map (Kernel.transpose (R := R))) := by
  induction ds generalizing shape with
  | nil => exact .nil
  | cons d ds ih =>
    obtain ⟨dim, shape, rfl⟩ := exists_cons_of_length_eq_add_one hlen.symm
    obtain ⟨hd, hds⟩ := forall_mem_cons.mp hds
    exact .cons (reverseWindow_kernel hd dim) (ih hds (add_right_cancel hlen))

theorem dot_reverseReduceWindow [CommRing R] {ds : List WindowDim}
    {x t y b : Tensor R} (ht : reduceWindow ds x = some t) (hy : y.shape = t.shape)
    (hb : reverseReduceWindow ds x.shape y = some b) : dot t y = dot x b := by
  obtain ⟨hlen, hds⟩ : ds.length = x.shape.length ∧ ∀ d ∈ ds, d.Ok := by
    by_contra hds
    rw [reduceWindow, if_neg hds] at ht
    cases ht
  obtain ⟨hshape, hget⟩ := reduceWindow_get ht
  simp only [reverseReduceWindow, bind_eq_bind, bind_eq_some_iff] at hb
  obtain ⟨padded, hpadded, rev, hrev, hif⟩ := hb
  split at hif
  swap
  · cases hif
  · rename_i hrevShape
    cases hif
    obtain ⟨hpaddedShape, hpaddedGet⟩ := pad_get hpadded
    obtain ⟨hrevShape', hrevGet⟩ := reduceWindow_get hrev
    rw [hy, hshape] at hpaddedShape hpaddedGet
    rw [hrevShape, hpaddedShape] at hrevGet
    have hagree := reverseWindow_agree (R := R) hds hlen
    have hrows : (zipWith WindowDim.kernel ds x.shape : List (Kernel R)).map Kernel.rows =
        zipWith WindowDim.numWindows ds x.shape := map_zipWith
    refine Kernel.dot_eq_of_agree
      (map_cols_zipWith WindowDim.kernel (fun _ _ => rfl) hlen).symm (hshape.trans hrows.symm)
      hget hagree fun idx hidx => ?_
    have hidx' := length_of_mem_indices hidx
    rw [hrevGet idx hidx, ← Kernel.apply_comp]
    · refine Kernel.apply_operand_congr _ (fun i hi => hpaddedGet i ?_) idx
      rw [map_cols_zipWith WindowDim.kernel fun _ _ => rfl] at hi
      · rw [hpaddedShape]
        exact hi
      · simp [hlen]
    · simp [hlen]
    · simp [hlen, hidx']

end EnzymeJax
