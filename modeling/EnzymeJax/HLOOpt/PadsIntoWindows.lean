import EnzymeJax.HLOOpt.SlicesOfWindows
import EnzymeJax.Library.PaddedWindows

/-!
# Pads folded into windows

The edge padding of the operand of a `reduce_window` or convolution becomes the padding of its windows. The operand
is padded before it is dilated, its windows after it, and the padding of a convolution is dropped. So elements
move, unless there is no dilation, or no padding.
-/

namespace EnzymeJax.PadsIntoWindows

open Tensor SlicesOfWindows List Option

/-! ### The patterns -/

def PadReduceWindow {V : Type} [DecidableEq V] (op : ReduceWindowOp) (pads : List PadDim)
    (paddingValue initValue : V) : Option ReduceWindowOp :=
  if ¬op.zeroPadding then none
  else if ¬pads.all fun pad => pad.interior = 0 then none
  else if paddingValue ≠ initValue then none
  else some { op with padding := some (pads.map fun pad => (pad.low, pad.high)) }

structure Verified (op : ReduceWindowOp) (pads : List PadDim) (shape : List Nat) : Prop where
  length_windowDimensions : op.windowDimensions.length = shape.length
  length_padding : ∀ l ∈ op.padding, l.length = shape.length
  dims_ok : ∀ d ∈ op.dims, d.Ok
  pads_ok : List.Forall₂ PadDim.Ok pads shape

/-- Whatever the operand is, the op on it has the result that the op on the padded operand has. -/
def Preserves {α : Type} (f : α → α → α) [Std.Commutative f] [Std.Associative f] (padding init : α)
    (op new : ReduceWindowOp) (pads : List PadDim) (shape : List Nat) : Prop :=
  ∀ x y : Tensor α, x.shape = shape → (pad pads padding x).bind (reduceWindows f init op.dims) = some y →
    ∃ z, reduceWindows f init new.dims x = some z ∧ Same z y

def withEdges (ds : List WindowDim) (pads : List PadDim) : List WindowDim :=
  List.zipWith (fun d pad => { d with padLow := pad.low, padHigh := pad.high }) ds pads

/-- There are as many windows over the dilated tensor with the padding as over the padded tensor when it is dilated. -/
def SameSizes (ds ds' : List WindowDim) (pads : List PadDim) (shape : List Nat) : Prop :=
  List.zipWith WindowDim.numWindows ds (edgePadded pads shape) = List.zipWith WindowDim.numWindows ds' shape

/-- Each window has positions at the same elements of the tensor. -/
def SameElements (ds ds' : List WindowDim) (pads : List PadDim) (shape : List Nat) : Prop :=
  ∀ o ∈ indices (List.zipWith WindowDim.numWindows ds' shape), ∀ p ∈ indices shape,
    (∃ w ∈ indices (ds.map WindowDim.window), CoversPadded ds pads shape o w p) ↔
      ∃ w ∈ indices (ds.map WindowDim.window), Covers ds' shape o w p

/-- Each position of each window is at the same element of the tensor. -/
def SameTaps (ds ds' : List WindowDim) (pads : List PadDim) (shape : List Nat) : Prop :=
  ∀ o ∈ indices (List.zipWith WindowDim.numWindows ds' shape), ∀ w ∈ indices (ds.map WindowDim.window),
    ∀ p ∈ indices shape, CoversPadded ds pads shape o w p ↔ Covers ds' shape o w p

instance (ds ds' : List WindowDim) (pads : List PadDim) (shape : List Nat) : Decidable (SameSizes ds ds' pads shape) :=
  inferInstanceAs (Decidable (_ = _))

instance (ds ds' : List WindowDim) (pads : List PadDim) (shape : List Nat) :
    Decidable (SameElements ds ds' pads shape) := inferInstanceAs (Decidable (∀ o ∈ indices _, ∀ p ∈ indices _, _))

instance (ds ds' : List WindowDim) (pads : List PadDim) (shape : List Nat) : Decidable (SameTaps ds ds' pads shape) :=
  inferInstanceAs (Decidable (∀ o ∈ indices _, ∀ w ∈ indices _, ∀ p ∈ indices _, _))

def Unaffected (ds : List WindowDim) (pads : List PadDim) (shape : List Nat) : Prop :=
  ∀ d < shape.length, (windowDim ds d).padLow = 0 ∧ (windowDim ds d).padHigh = 0 ∧
    ((windowDim ds d).baseDilation = 1 ∨ (padDim pads d).low = 0 ∧ (padDim pads d).high = 0)

instance (ds : List WindowDim) (pads : List PadDim) (shape : List Nat) : Decidable (Unaffected ds pads shape) :=
  inferInstanceAs (Decidable (∀ d < shape.length, _))

section

variable {ds ds' : List WindowDim} {pads : List PadDim} {shape : List Nat}

def TakesPads (ds ds' : List WindowDim) (pads : List PadDim) (shape : List Nat) : Prop :=
  ∀ d < shape.length, windowDim ds' d =
    { windowDim ds d with padLow := (padDim pads d).low, padHigh := (padDim pads d).high }

theorem withEdges_of_takesPads (hds : ds.length = shape.length) (hds' : ds'.length = shape.length)
    (hpads : pads.length = shape.length) (htakes : TakesPads ds ds' pads shape) : ds' = withEdges ds pads := by
  refine ext_getElem (by rw [withEdges, length_zipWith, hds, hds', hpads, min_self]) fun d hd hd' => ?_
  have hlt : d < shape.length := hds' ▸ hd
  rw [← windowDim_eq_getElem hd, htakes d hlt, windowDim_eq_getElem (hds.symm ▸ hlt),
    padDim_eq_getElem (hpads.symm ▸ hlt)]
  simp only [withEdges, getElem_zipWith]

theorem sameElements_of_sameTaps (h : SameTaps ds ds' pads shape) : SameElements ds ds' pads shape :=
  fun o ho p hp => exists_congr fun w => and_congr_right fun hw => h o ho w hw p hp

theorem same_of_unaffected (hds : ds.length = shape.length) (hds' : ds'.length = shape.length)
    (hok : ∀ d ∈ ds, d.Ok) (hpads : List.Forall₂ PadDim.Ok pads shape) (hedge : ∀ e ∈ pads, e.interior = 0)
    (htakes : TakesPads ds ds' pads shape) (h : Unaffected ds pads shape) :
    SameSizes ds ds' pads shape ∧ SameTaps ds ds' pads shape := by
  have hlen := length_edgePadded hpads.length_eq
  have hnum : (zipWith WindowDim.numWindows ds' shape).length = shape.length := by
    rw [length_zipWith, hds', min_self]
  -- the extent of a dimension with its padding, in both ways
  have hsize : ∀ d < shape.length, (windowDim ds d).padding.size (coord (edgePadded pads shape) d) =
      (windowDim ds' d).padding.size (coord shape d) := by
    intro d hd
    obtain ⟨hlow, hhigh, hcase⟩ := h d hd
    have hd' : d < pads.length := hpads.length_eq.symm ▸ hd
    have hpad := (forall₂_iff_get.mp hpads).2 d hd' hd
    rw [get_eq_getElem, get_eq_getElem, ← padDim_eq_getElem hd', ← coord_eq_getElem hd] at hpad
    have hinterior : (padDim pads d).interior = 0 := by
      rw [padDim_eq_getElem hd']
      exact hedge _ (getElem_mem hd')
    have hnonneg := hpad.2
    rw [PadDim.size_of_interior hinterior] at hnonneg
    rw [htakes d hd, coord_edgePadded hpads.length_eq hedge hd]
    simp only [WindowDim.padding, hlow, hhigh]
    obtain hbase | ⟨hzero, hzero'⟩ := hcase
    · rw [hbase, PadDim.size_of_interior (by simp), PadDim.size_of_interior (by simp)]
      dsimp only
      omega
    · rw [hzero, hzero', zero_add, add_zero, Int.toNat_natCast]
  refine ⟨?_, fun o ho w hw p hp => ?_⟩
  · have hnum' : (zipWith WindowDim.numWindows ds (edgePadded pads shape)).length = shape.length := by
      rw [length_zipWith, hds, hlen, min_self]
    refine eq_of_coord (hnum'.trans hnum.symm) fun d hd => ?_
    rw [hnum'] at hd
    rw [coord_numWindows (hds.trans hlen.symm) (hlen.symm ▸ hd), coord_numWindows hds' hd, WindowDim.numWindows,
      WindowDim.numWindows, hsize d hd, htakes d hd]
    rfl
  · refine forall₂_congr fun d hd => ?_
    obtain ⟨hlow, hhigh, hcase⟩ := h d hd
    have hokd : (windowDim ds' d).Ok := by
      rw [htakes d hd]
      have hold := hok _ (getElem_mem (hds.symm ▸ hd))
      rwa [← windowDim_eq_getElem (hds.symm ▸ hd)] at hold
    have ho' := coord_lt ho (hnum.symm ▸ hd)
    have hw' := coord_lt hw (d := d) (by rwa [length_map, hds])
    have hp' := coord_lt hp hd
    rw [coord_numWindows hds' hd] at ho'
    rw [coord_map _ _ (hds.symm ▸ hd), ← windowDim_eq_getElem] at hw'
    have hlt := WindowDim.position_lt hokd ho' (w := coord w d) (by rw [htakes d hd]; exact hw')
    rw [htakes d hd] at hlt ⊢
    rw [hlow]
    simp only [WindowDim.padding] at hlt
    dsimp only at hlt ⊢
    obtain hbase | ⟨hzero, hzero'⟩ := hcase
    · rw [hbase] at hlt ⊢
      rw [PadDim.size_of_interior (by simp)] at hlt
      dsimp only at hlt
      push_cast
      constructor
      · rintro ⟨-, -, heq⟩
        omega
      · intro heq
        have hnonneg : (0 : Int) ≤ coord o d * (windowDim ds d).stride +
            coord w d * (windowDim ds d).windowDilation := by positivity
        exact ⟨by omega, by omega, by omega⟩
    · rw [hzero, hzero', zero_add, zero_add, add_zero]
      constructor
      · exact fun hat => by rw [hat.2.2, zero_add]
      · intro heq
        exact ⟨by omega, by omega, by rw [heq]⟩

end

section

variable {V : Type} [DecidableEq V] {op new : ReduceWindowOp} {pads : List PadDim} {shape : List Nat}
  {paddingValue initValue : V} {d : Nat}

structure Fired (op new : ReduceWindowOp) (pads : List PadDim) : Prop where
  edge : ∀ e ∈ pads, e.interior = 0
  padLow : ∀ d < op.windowDimensions.length, (windowDim op.dims d).padLow = 0
  padHigh : ∀ d < op.windowDimensions.length, (windowDim op.dims d).padHigh = 0
  new_eq : new = { op with padding := some (pads.map fun pad => (pad.low, pad.high)) }

theorem fired_of_eq_some (hv : Verified op pads shape)
    (h : PadReduceWindow op pads paddingValue initValue = some new) : paddingValue = initValue ∧ Fired op new pads := by
  rw [PadReduceWindow] at h
  split_ifs at h with hzero hedge hval
  have hpadding : ∀ d < op.windowDimensions.length, op.padding.elim (0, 0) (·.getD d (0, 0)) = ((0, 0) : Int × Int) := by
    intro d hd
    cases hpads : op.padding with
    | none => rfl
    | some l =>
      have hlen := hv.length_padding l (by rw [hpads]; rfl)
      rw [ReduceWindowOp.zeroPadding, hpads, all_some] at hzero
      have hd' : d < l.length := by rw [hlen, ← hv.length_windowDimensions]; exact hd
      have hat := of_decide_eq_true (all_eq_true.mp hzero _ (getElem_mem hd'))
      rw [elim_some, getD_eq_getElem _ _ hd']
      exact Prod.ext hat.1 hat.2
  refine ⟨not_not.mp hval, ?_, fun d hd => ?_, fun d hd => ?_, (some.inj h).symm⟩
  · exact fun e he => of_decide_eq_true (all_eq_true.mp hedge e he)
  · rw [windowDim_dims op hd, hpadding d hd]
  · rw [windowDim_dims op hd, hpadding d hd]

theorem windowDim_new (hf : Fired op new pads) (hpads : pads.length = op.windowDimensions.length)
    (hd : d < op.windowDimensions.length) : windowDim new.dims d =
      { windowDim op.dims d with padLow := (padDim pads d).low, padHigh := (padDim pads d).high } := by
  have hd' : d < pads.length := hpads.symm ▸ hd
  have hnew := windowDim_dims { op with padding := some (pads.map fun pad => (pad.low, pad.high)) } hd
  have hpad : (pads.map fun pad => (pad.low, pad.high)).getD d (0, 0) = ((padDim pads d).low, (padDim pads d).high) := by
    rw [getD_eq_getElem _ _ (by rwa [length_map]), getElem_map, padDim_eq_getElem hd']
  rw [hf.new_eq, hnew, windowDim_dims op hd, elim_some, hpad]

theorem length_newDims (hf : Fired op new pads) : new.dims.length = op.windowDimensions.length := by
  rw [hf.new_eq, ReduceWindowOp.dims, length_map, length_range]

theorem window_newDims (hf : Fired op new pads) : new.dims.map WindowDim.window = op.dims.map WindowDim.window := by
  rw [hf.new_eq, ReduceWindowOp.dims, ReduceWindowOp.dims, List.map_map, List.map_map]
  rfl

theorem newDims_ok (hv : Verified op pads shape) (hf : Fired op new pads) : ∀ d ∈ new.dims, d.Ok := by
  have hpads : pads.length = op.windowDimensions.length :=
    hv.pads_ok.length_eq.trans hv.length_windowDimensions.symm
  intro e he
  obtain ⟨d, hd, rfl⟩ := getElem_of_mem he
  have hd' : d < op.windowDimensions.length := length_newDims hf ▸ hd
  have hold : (windowDim op.dims d).Ok := by
    rw [windowDim_eq_getElem (by rwa [ReduceWindowOp.dims, length_map, length_range])]
    exact hv.dims_ok _ (getElem_mem _)
  rw [← windowDim_eq_getElem hd, windowDim_new hf hpads hd']
  exact hold

end

/-! ### When the reductions are the same -/

section

variable {α : Type} {f : α → α → α} [Std.Commutative f] [Std.Associative f] {init : α} {op new : ReduceWindowOp}
  {pads : List PadDim} {shape : List Nat}

theorem preserves_iff_same [Nontrivial α] (hneutral : ∀ a, f init a = a) (hv : Verified op pads shape)
    (hf : Fired op new pads) : Preserves f init init op new pads shape ↔
      SameSizes op.dims new.dims pads shape ∧ SameElements op.dims new.dims pads shape := by
  have hrank := hv.length_windowDimensions
  have hpads : pads.length = shape.length := hv.pads_ok.length_eq
  have hds : op.dims.length = shape.length := by rw [ReduceWindowOp.dims, length_map, length_range, hrank]
  have hds' : new.dims.length = shape.length := (length_newDims hf).trans hrank
  have hok' := newDims_ok hv hf
  -- the results of both ops, and their elements
  have hboth : ∀ x : Tensor α, x.shape = shape → ∃ y z,
      (pad pads init x).bind (reduceWindows f init op.dims) = some y ∧ reduceWindows f init new.dims x = some z ∧
      y.shape = zipWith WindowDim.numWindows op.dims (edgePadded pads shape) ∧
      z.shape = zipWith WindowDim.numWindows new.dims shape ∧
      ∀ o : List Nat, o.length = shape.length → y.get o = (underPadded op.dims pads shape o).fold f init x.get ∧
        z.get o = (underWindow new.dims shape o).fold f init x.get := by
    rintro x rfl
    obtain ⟨xp, hxp⟩ : ∃ xp, pad pads init x = some xp := ⟨_, if_pos hv.pads_ok⟩
    have hshape := shape_edgePadded hxp
    have hlen := length_edgePadded hpads
    refine ⟨_, _, by rw [hxp, bind_some]; exact if_pos ⟨by rw [hshape, hlen, hds], hv.dims_ok⟩,
      if_pos ⟨hds', hok'⟩, by rw [hshape], rfl, fun o ho => ⟨?_, ?_⟩⟩
    · dsimp only
      rw [hshape]
      exact fold_padded f (edgePads_of_pad hxp hf.edge) hneutral hpads hf.edge hds hv.dims_ok ho
    · exact fold_window f hok' hds' ho (.inl hneutral)
  have hunder : ∀ o : List Nat, o.length = shape.length → ∀ p ∈ indices shape,
      (p ∈ underPadded op.dims pads shape o ↔ ∃ w ∈ indices (op.dims.map WindowDim.window),
        CoversPadded op.dims pads shape o w p) ∧
      (p ∈ underWindow new.dims shape o ↔ ∃ w ∈ indices (op.dims.map WindowDim.window),
        Covers new.dims shape o w p) := by
    intro o ho p hp
    rw [underPadded, underWindow, Finset.mem_filter, Finset.mem_filter, and_iff_right hp, and_iff_right hp,
      window_newDims hf]
    refine ⟨Iff.rfl, exists_congr fun w => and_congr_right fun hw => ?_⟩
    have hw' : w.length = shape.length := by rw [length_of_mem_indices hw, length_map, hds]
    rw [windowSource_iff_covers hds' hok' ho hw', and_iff_right hp]
  have hlen : (zipWith WindowDim.numWindows new.dims shape).length = shape.length := by
    rw [length_zipWith, hds', min_self]
  constructor
  · intro hpreserves
    obtain ⟨a, ha⟩ := exists_ne init
    refine ⟨?_, fun o ho p hp => ?_⟩
    · obtain ⟨y, z, hy, hz, hyshape, hzshape, -⟩ := hboth (splat shape init) rfl
      obtain ⟨z', hz', hsame⟩ := hpreserves _ y rfl hy
      cases hz.symm.trans hz'
      rw [SameSizes, ← hyshape, ← hzshape, hsame.shape_eq]
    · -- an operand that has one element that is not the init value
      obtain ⟨y, z, hy, hz, -, hzshape, hget⟩ := hboth ⟨shape, fun idx => if idx = p then a else init⟩ rfl
      obtain ⟨z', hz', hsame⟩ := hpreserves _ y rfl hy
      cases hz.symm.trans hz'
      have ho' : o.length = shape.length := (length_of_mem_indices ho).trans hlen
      have heq := hsame.get_eq o (hzshape ▸ ho)
      rw [(hget o ho').1, (hget o ho').2] at heq
      dsimp only at heq
      rw [fold_mark f hneutral, fold_mark f hneutral] at heq
      rw [← (hunder o ho' p hp).1, ← (hunder o ho' p hp).2]
      split_ifs at heq with hnew hold hold
      · exact iff_of_true hold hnew
      · exact absurd heq ha
      · exact absurd heq.symm ha
      · exact iff_of_false hold hnew
  · rintro ⟨hsizes, helements⟩ x y hx hy
    obtain ⟨y', z, hy', hz, hyshape, hzshape, hget⟩ := hboth x hx
    cases hy.symm.trans hy'
    refine ⟨z, hz, by rw [hyshape, hzshape, hsizes], fun o ho => ?_⟩
    rw [hzshape] at ho
    have ho' : o.length = shape.length := (length_of_mem_indices ho).trans hlen
    rw [(hget o ho').1, (hget o ho').2]
    congr 1
    ext p
    by_cases hp : p ∈ indices shape
    · rw [(hunder o ho' p hp).1, (hunder o ho' p hp).2]
      exact (helements o ho p hp).symm
    · exact iff_of_false (fun hmem => hp (Finset.mem_filter.mp hmem).1) fun hmem => hp (Finset.mem_filter.mp hmem).1

end

/-! ### Convolutions -/

structure ConvolutionOp where
  dimensionNumbers : ConvDims
  windowStrides : Option (List Nat)
  padding : Option (List (Int × Int))
  lhsDilation : Option (List Nat)
  rhsDilation : Option (List Nat)
  windowReversal : Option (List Bool)
  featureGroupCount : Nat
  batchGroupCount : Nat

namespace ConvolutionOp

/-- The windows of a kernel, where strides and dilations that are left out are 1 and padding is 0. -/
def windows (op : ConvolutionOp) (kernel : List Nat) : List WindowDim :=
  (List.range op.dimensionNumbers.kernelSpatial.length).map fun i =>
    { window := coord kernel (coord op.dimensionNumbers.kernelSpatial i)
      stride := op.windowStrides.elim 1 (coord · i)
      baseDilation := op.lhsDilation.elim 1 (coord · i)
      windowDilation := op.rhsDilation.elim 1 (coord · i)
      padLow := (op.padding.elim (0, 0) (·.getD i (0, 0))).1
      padHigh := (op.padding.elim (0, 0) (·.getD i (0, 0))).2 }

def conv (op : ConvolutionOp) (kernel : List Nat) : Conv :=
  { dims := op.dimensionNumbers
    windows := op.windows kernel
    reversal := op.windowReversal.getD (List.replicate op.dimensionNumbers.kernelSpatial.length false)
    featureGroups := op.featureGroupCount
    batchGroups := op.batchGroupCount }

end ConvolutionOp

/-- The padding value is given if it is a constant. -/
def ConvolutionPad {R : Type} [Zero R] [DecidableEq R] (op : ConvolutionOp) (pads : List PadDim)
    (padValAttr : Option R) : Option ConvolutionOp :=
  let inputBatchDim := op.dimensionNumbers.inputBatch
  let inputFeatureDim := op.dimensionNumbers.inputFeature
  if ¬pads.all fun pad => pad.interior = 0 then none
  else if padValAttr ≠ some 0 then none
  else if (padDim pads inputBatchDim).low ≠ 0 ∨ (padDim pads inputBatchDim).high ≠ 0 ∨
      (padDim pads inputFeatureDim).low ≠ 0 ∨ (padDim pads inputFeatureDim).high ≠ 0 then none
  else some { op with padding := some (op.dimensionNumbers.inputSpatial.map fun dim =>
    ((padDim pads dim).low, (padDim pads dim).high)) }

/-- Whatever the operands are, the op on the operand has the result that the op on the padded operand has. -/
def PreservesConv {R : Type} [CommRing R] (padding : R) (op new : ConvolutionOp) (pads : List PadDim)
    (shape kernel : List Nat) : Prop :=
  ∀ x k y : Tensor R, x.shape = shape → k.shape = kernel →
    (pad pads padding x).bind (convolution (op.conv kernel) · k) = some y →
      ∃ z, convolution (new.conv kernel) x k = some z ∧ Same z y

structure ConvVerified (op : ConvolutionOp) (pads : List PadDim) (shape kernel : List Nat) : Prop where
  pads_ok : List.Forall₂ PadDim.Ok pads shape
  conv_ok : (op.conv kernel).Ok (edgePadded pads shape) kernel

/-- The extents and the padding of the spatial dimensions. -/
def spatialShape (op : ConvolutionOp) (shape : List Nat) : List Nat :=
  op.dimensionNumbers.inputSpatial.map (coord shape)

def spatialPads (op : ConvolutionOp) (pads : List PadDim) : List PadDim :=
  op.dimensionNumbers.inputSpatial.map (padDim pads)

/-- There are elements of the result, and features that they are summed over. -/
def HasElements (op : ConvolutionOp) (shape kernel : List Nat) : Prop :=
  0 < coord shape op.dimensionNumbers.inputBatch ∧ 0 < coord kernel op.dimensionNumbers.kernelOutputFeature ∧
    0 < coord kernel op.dimensionNumbers.kernelInputFeature

section

variable {R : Type} [CommRing R] [DecidableEq R] {op new : ConvolutionOp} {pads : List PadDim} {shape kernel : List Nat}
  {padValAttr : Option R} {d : Nat}

structure ConvFired (op new : ConvolutionOp) (pads : List PadDim) : Prop where
  edge : ∀ e ∈ pads, e.interior = 0
  batch : padDim pads op.dimensionNumbers.inputBatch = ⟨0, 0, 0⟩
  feature : padDim pads op.dimensionNumbers.inputFeature = ⟨0, 0, 0⟩
  new_eq : new = { op with padding := some (op.dimensionNumbers.inputSpatial.map fun dim =>
    ((padDim pads dim).low, (padDim pads dim).high)) }

theorem interior_padDim (hedge : ∀ e ∈ pads, e.interior = 0) (d : Nat) : (padDim pads d).interior = 0 := by
  by_cases hd : d < pads.length
  · rw [padDim_eq_getElem hd]
    exact hedge _ (getElem_mem hd)
  · rw [padDim, getD_eq_default _ _ (not_lt.mp hd)]

theorem padDim_eq_zero (hedge : ∀ e ∈ pads, e.interior = 0) (hlow : (padDim pads d).low = 0)
    (hhigh : (padDim pads d).high = 0) : padDim pads d = ⟨0, 0, 0⟩ := by
  have hinterior := interior_padDim hedge d
  cases hpad : padDim pads d
  rw [hpad] at hlow hhigh hinterior
  exact PadDim.mk.injEq .. ▸ ⟨hlow, hhigh, hinterior⟩

theorem convFired_of_eq_some (h : ConvolutionPad op pads padValAttr = some new) :
    padValAttr = some 0 ∧ ConvFired op new pads := by
  rw [ConvolutionPad] at h
  split_ifs at h with hedge hval hzero
  push Not at hzero
  have hedge : ∀ e ∈ pads, e.interior = 0 := fun e he => of_decide_eq_true (all_eq_true.mp hedge e he)
  exact ⟨not_not.mp hval, hedge, padDim_eq_zero hedge hzero.1 hzero.2.1,
    padDim_eq_zero hedge hzero.2.2.1 hzero.2.2.2, (some.inj h).symm⟩

theorem windowDim_windows (op : ConvolutionOp) (kernel : List Nat) (hd : d < op.dimensionNumbers.kernelSpatial.length) :
    windowDim (op.windows kernel) d =
      { window := coord kernel (coord op.dimensionNumbers.kernelSpatial d)
        stride := op.windowStrides.elim 1 (coord · d)
        baseDilation := op.lhsDilation.elim 1 (coord · d)
        windowDilation := op.rhsDilation.elim 1 (coord · d)
        padLow := (op.padding.elim (0, 0) (·.getD d (0, 0))).1
        padHigh := (op.padding.elim (0, 0) (·.getD d (0, 0))).2 } := by
  rw [windowDim_eq_getElem (by rwa [ConvolutionOp.windows, length_map, length_range])]
  simp only [ConvolutionOp.windows, getElem_map, getElem_range]

theorem length_convWindows (op : ConvolutionOp) (kernel : List Nat) :
    (op.windows kernel).length = op.dimensionNumbers.kernelSpatial.length := by
  rw [ConvolutionOp.windows, length_map, length_range]

theorem length_spatial (hv : ConvVerified op pads shape kernel) :
    op.dimensionNumbers.kernelSpatial.length = op.dimensionNumbers.inputSpatial.length :=
  (length_convWindows op kernel).symm.trans hv.conv_ok.length_windows

theorem length_spatialPads (op : ConvolutionOp) (pads : List PadDim) (shape : List Nat) :
    (spatialPads op pads).length = (spatialShape op shape).length := by
  rw [spatialPads, spatialShape, length_map, length_map]

theorem interior_spatialPads (hf : ConvFired op new pads) : ∀ e ∈ spatialPads op pads, e.interior = 0 := by
  intro e he
  obtain ⟨d, -, rfl⟩ := mem_map.mp he
  exact interior_padDim hf.edge d

section

variable (hv : ConvVerified op pads shape kernel)

include hv

theorem takesPads_conv (hf : ConvFired op new pads) :
    TakesPads (op.windows kernel) (new.windows kernel) (spatialPads op pads) (spatialShape op shape) := by
  intro d hd
  rw [spatialShape, length_map] at hd
  have hd' : d < op.dimensionNumbers.kernelSpatial.length := (length_spatial hv).symm ▸ hd
  have hnew := windowDim_windows { op with padding := some (op.dimensionNumbers.inputSpatial.map fun dim =>
    ((padDim pads dim).low, (padDim pads dim).high)) } kernel hd'
  have hspatial : padDim (spatialPads op pads) d = padDim pads op.dimensionNumbers.inputSpatial[d] := by
    rw [padDim_eq_getElem (by rwa [spatialPads, length_map])]
    exact getElem_map _
  have hpad : (op.dimensionNumbers.inputSpatial.map fun dim => ((padDim pads dim).low, (padDim pads dim).high)).getD d
      (0, 0) = ((padDim (spatialPads op pads) d).low, (padDim (spatialPads op pads) d).high) := by
    rw [getD_eq_getElem _ _ (by rwa [length_map]), getElem_map, hspatial]
  rw [hf.new_eq, hnew, windowDim_windows op kernel hd', elim_some, hpad]

theorem lt_of_mem_input {e : Nat} (he : e ∈ op.dimensionNumbers.input) : e < shape.length := by
  have hmem := mem_range.mp (hv.conv_ok.input_perm.mem_iff.mp he)
  rwa [length_edgePadded hv.pads_ok.length_eq] at hmem

theorem edgePadded_input (hf : ConvFired op new pads) :
    coord (edgePadded pads shape) op.dimensionNumbers.inputBatch = coord shape op.dimensionNumbers.inputBatch ∧
      coord (edgePadded pads shape) op.dimensionNumbers.inputFeature = coord shape op.dimensionNumbers.inputFeature ∧
        spatialShape op (edgePadded pads shape) = edgePadded (spatialPads op pads) (spatialShape op shape) := by
  have hpads := hv.pads_ok.length_eq
  have hat : ∀ e ∈ op.dimensionNumbers.input, coord (edgePadded pads shape) e =
      ((padDim pads e).low + coord shape e + (padDim pads e).high).toNat := fun e he =>
    coord_edgePadded hpads hf.edge (lt_of_mem_input hv he)
  refine ⟨?_, ?_, ?_⟩
  · rw [hat _ (by simp [ConvDims.input]), hf.batch, zero_add, add_zero, Int.toNat_natCast]
  · rw [hat _ (by simp [ConvDims.input]), hf.feature, zero_add, add_zero, Int.toNat_natCast]
  · have hzip : edgePadded (spatialPads op pads) (spatialShape op shape) =
        op.dimensionNumbers.inputSpatial.map fun e => ((padDim pads e).size (coord shape e)).toNat := by
      rw [edgePadded, spatialPads, spatialShape, zipWith_map_left, zipWith_map_right, zipWith_self]
    rw [hzip, spatialShape]
    refine map_congr_left fun e he => ?_
    rw [hat e (by simp [ConvDims.input, he]), PadDim.size_of_interior (interior_padDim hf.edge e)]

theorem spatialPads_ok : List.Forall₂ PadDim.Ok (spatialPads op pads) (spatialShape op shape) := by
  rw [spatialPads, spatialShape, forall₂_map_left_iff, forall₂_map_right_iff, forall₂_same]
  intro e he
  have he' := lt_of_mem_input hv (e := e) (by simp [ConvDims.input, he])
  have hpad : e < pads.length := hv.pads_ok.length_eq.symm ▸ he'
  have hat := (forall₂_iff_get.mp hv.pads_ok).2 e hpad he'
  rwa [get_eq_getElem, get_eq_getElem, ← padDim_eq_getElem hpad, ← coord_eq_getElem he'] at hat

end

theorem dims_new (hf : ConvFired op new pads) : new.dimensionNumbers = op.dimensionNumbers := by rw [hf.new_eq]

theorem window_new (hf : ConvFired op new pads) (kernel : List Nat) :
    (new.windows kernel).map WindowDim.window = (op.windows kernel).map WindowDim.window := by
  rw [hf.new_eq, ConvolutionOp.windows, ConvolutionOp.windows, List.map_map, List.map_map]
  rfl

theorem length_new (hf : ConvFired op new pads) (kernel : List Nat) :
    (new.windows kernel).length = (op.windows kernel).length := by
  rw [length_convWindows, length_convWindows, dims_new hf]

theorem newWindows_ok (hv : ConvVerified op pads shape kernel) (hf : ConvFired op new pads) :
    ∀ d ∈ new.windows kernel, d.Ok := by
  intro e he
  obtain ⟨d, hd, rfl⟩ := getElem_of_mem he
  have hd' : d < (op.windows kernel).length := length_new hf kernel ▸ hd
  have hd'' : d < (spatialShape op shape).length := by
    rw [spatialShape, length_map]
    exact hv.conv_ok.length_windows ▸ hd'
  have hold : (windowDim (op.windows kernel) d).Ok := by
    rw [windowDim_eq_getElem hd']
    exact hv.conv_ok.windows_ok _ (getElem_mem hd')
  rw [← windowDim_eq_getElem hd, takesPads_conv hv hf d hd'']
  exact hold

theorem newConv_ok (hv : ConvVerified op pads shape kernel) (hf : ConvFired op new pads) :
    (new.conv kernel).Ok shape kernel := by
  obtain ⟨hbatch, hfeature, -⟩ := edgePadded_input hv hf
  have hlen := length_edgePadded hv.pads_ok.length_eq
  have hok := hv.conv_ok
  have hwindows := length_new hf kernel
  have hsize := window_new hf kernel
  have hwindows_ok := newWindows_ok hv hf
  have hnew := hf.new_eq
  constructor
  · rw [hnew, ← hlen]
    exact hok.input_perm
  · rw [hnew]
    exact hok.kernel_perm
  · rw [hnew, ← hlen]
    exact hok.output_perm
  · refine hwindows.trans (hok.length_windows.trans ?_)
    rw [hnew]
    rfl
  · exact hwindows_ok
  · refine hsize.trans (hok.window_size.trans ?_)
    rw [hnew]
    rfl
  · refine Eq.trans ?_ (hok.length_reversal.trans hwindows.symm)
    rw [hnew]
    rfl
  · rw [hnew]
    exact hok.groups
  · rw [hnew, ConvolutionOp.conv, ← hfeature]
    exact hok.features
  · rw [hnew]
    exact hok.output_features
  · rw [hnew, ConvolutionOp.conv, ← hbatch]
    exact hok.batches

end

section

variable {R : Type} [CommRing R] {op new : ConvolutionOp} {pads : List PadDim} {shape kernel : List Nat}

variable {o w : List Nat}

section

variable {x xp : Tensor R} (hxp : pad pads 0 x = some xp) (hv : ConvVerified op pads x.shape kernel)
  (hf : ConvFired op new pads) {b f : Nat} (hb : b < coord x.shape op.dimensionNumbers.inputBatch)
  (hfeature : f < coord x.shape op.dimensionNumbers.inputFeature)

include hxp hv hf hb hfeature

theorem edgePads_input : EdgePads (spatialPads op pads) (spatialShape op x.shape) 0
      (fun p => x.read (Tensor.place op.dimensionNumbers.input (coord (b :: f :: p))))
      (fun p => xp.read (Tensor.place op.dimensionNumbers.input (coord (b :: f :: p)))) := by
  have hpads := hv.pads_ok.length_eq
  have hperm : op.dimensionNumbers.input.Perm (range pads.length) := by
    rw [hpads, ← length_edgePadded hpads]
    exact hv.conv_ok.input_perm
  have hsrc : ∀ d (q : Nat), (padDim pads d).source (coord x.shape d) q =
      if 0 ≤ (q : Int) - (padDim pads d).low ∧ (q : Int) - (padDim pads d).low < coord x.shape d then
        some ((q : Int) - (padDim pads d).low).toNat else none := fun d q =>
    PadDim.source_of_interior (interior_padDim hf.edge d)
  have hlen : (spatialShape op x.shape).length = op.dimensionNumbers.inputSpatial.length := length_map _
  have hpadAt : ∀ d < op.dimensionNumbers.inputSpatial.length,
      padDim (spatialPads op pads) d = padDim pads (coord op.dimensionNumbers.inputSpatial d) ∧
        coord (spatialShape op x.shape) d = coord x.shape (coord op.dimensionNumbers.inputSpatial d) := by
    intro d hd
    rw [padDim_eq_getElem (by rwa [spatialPads, length_map]), spatialShape, coord_map _ _ hd, coord_eq_getElem hd]
    exact ⟨getElem_map _, rfl⟩
  have hplace : ∀ p : List Nat, ∀ i < op.dimensionNumbers.input.length,
      Tensor.place op.dimensionNumbers.input (coord (b :: f :: p)) (coord op.dimensionNumbers.input i) =
        coord (b :: f :: p) i := by
    intro p i hi
    rw [coord_eq_getElem hi, place_getElem (hperm.nodup_iff.mpr nodup_range)]
  have hspatial : ∀ d, d + 2 < op.dimensionNumbers.input.length → d < op.dimensionNumbers.inputSpatial.length := by
    intro d hd
    simp only [ConvDims.input, length_cons] at hd
    omega
  refine ⟨fun p q hp hq hat => ?_, fun q hq hout => ?_⟩
  · have hsame : ∀ i < op.dimensionNumbers.input.length,
        (coord (b :: f :: q) i : Int) = (padDim pads (coord op.dimensionNumbers.input i)).low + coord (b :: f :: p) i ∧
          coord (b :: f :: p) i < coord x.shape (coord op.dimensionNumbers.input i) := by
      intro i hi
      rcases i with _ | _ | d
      · refine ⟨?_, hb⟩
        change (b : Int) = (padDim pads op.dimensionNumbers.inputBatch).low + b
        rw [hf.batch, zero_add]
      · refine ⟨?_, hfeature⟩
        change (f : Int) = (padDim pads op.dimensionNumbers.inputFeature).low + f
        rw [hf.feature, zero_add]
      · have hd := hspatial d hi
        have hlt := coord_lt hp (hlen.symm ▸ hd)
        have heq := hat d (hlen.symm ▸ hd)
        rw [(hpadAt d hd).1] at heq
        rw [(hpadAt d hd).2] at hlt
        exact ⟨heq, hlt⟩
    refine (read_pad hxp _).1 _ ((forall_place_iff hperm (P := fun v d =>
      (padDim pads d).source (coord x.shape d) (Tensor.place op.dimensionNumbers.input (coord (b :: f :: q)) d) = some v)).mpr
      fun i hi => ?_)
    obtain ⟨heq, hlt⟩ := hsame i hi
    rw [hplace q i hi, hsrc, if_pos ⟨by omega, by omega⟩]
    exact congrArg some (by omega)
  · obtain ⟨d, hd, hout⟩ := hout
    have hd' : d < op.dimensionNumbers.inputSpatial.length := hlen ▸ hd
    have hi : d + 2 < op.dimensionNumbers.input.length := by simpa [ConvDims.input] using hd'
    refine (read_pad hxp _).2 ⟨coord op.dimensionNumbers.input (d + 2), ?_, ?_⟩
    · rw [coord_eq_getElem hi]
      exact mem_range.mp (hperm.mem_iff.mp (getElem_mem hi))
    · rw [(hpadAt d hd').1, (hpadAt d hd').2] at hout
      rw [hplace q _ hi, hsrc]
      exact if_neg hout

theorem tap_conv (ho : o.length = (spatialShape op x.shape).length)
    (hw : w.length = (spatialShape op x.shape).length) : (op.conv kernel).tap xp b f o w =
        ((paddedSource (op.windows kernel) (spatialPads op pads) (spatialShape op x.shape) o w).map fun p =>
          x.read (Tensor.place op.dimensionNumbers.input (coord (b :: f :: p)))).getD 0 ∧
      (new.conv kernel).tap x b f o w = ((windowSource (new.windows kernel) (spatialShape op x.shape) o w).map fun p =>
          x.read (Tensor.place op.dimensionNumbers.input (coord (b :: f :: p)))).getD 0 := by
  have hds : (op.windows kernel).length = (spatialShape op x.shape).length := by
    rw [spatialShape, length_map]
    exact hv.conv_ok.length_windows
  constructor
  · have htap := tap_padded (edgePads_input hxp hv hf hb hfeature) (length_spatialPads op pads x.shape)
      (interior_spatialPads hf) hds hv.conv_ok.windows_ok ho hw
    rw [← (edgePadded_input hv hf).2.2, ← shape_edgePadded hxp] at htap
    exact htap
  · rw [Conv.tap, ConvolutionOp.conv, dims_new hf]
    rfl

end

section

variable (hv : ConvVerified op pads shape kernel)

include hv

theorem outputSizes_conv (hf : ConvFired op new pads) :
    (op.conv kernel).outputSizes (edgePadded pads shape) kernel =
        coord shape op.dimensionNumbers.inputBatch / op.batchGroupCount ::
          coord kernel op.dimensionNumbers.kernelOutputFeature :: zipWith WindowDim.numWindows (op.windows kernel)
            (edgePadded (spatialPads op pads) (spatialShape op shape)) ∧
      (new.conv kernel).outputSizes shape kernel = coord shape op.dimensionNumbers.inputBatch / op.batchGroupCount ::
          coord kernel op.dimensionNumbers.kernelOutputFeature ::
            zipWith WindowDim.numWindows (new.windows kernel) (spatialShape op shape) := by
  obtain ⟨hbatch, -, hspatial⟩ := edgePadded_input hv hf
  constructor
  · rw [← hbatch, ← hspatial]
    rfl
  · rw [hf.new_eq]
    rfl

theorem shape_conv_iff (hf : ConvFired op new pads) :
    (new.conv kernel).shape shape kernel = (op.conv kernel).shape (edgePadded pads shape) kernel ↔
      SameSizes (op.windows kernel) (new.windows kernel) (spatialPads op pads) (spatialShape op shape) := by
  obtain ⟨hold, hnew⟩ := outputSizes_conv hv hf
  have hlen := length_edgePadded hv.pads_ok.length_eq
  have hdims : (new.conv kernel).dims = (op.conv kernel).dims := dims_new hf
  constructor
  · intro heq
    have hat : ∀ p < op.dimensionNumbers.output.length, coord ((new.conv kernel).outputSizes shape kernel) p =
        coord ((op.conv kernel).outputSizes (edgePadded pads shape) kernel) p := by
      intro p hp
      have hp' : p < (new.conv kernel).dims.output.length := by rw [hdims]; exact hp
      rw [← coord_convShape hv.conv_ok hp, ← coord_convShape (newConv_ok hv hf) hp', heq, hdims]
    have hspatial : op.dimensionNumbers.outputSpatial.length = (spatialShape op shape).length := by
      rw [spatialShape, length_map]
      exact hv.conv_ok.length_outputSpatial
    have hds : (op.windows kernel).length = (spatialShape op shape).length := by
      rw [spatialShape, length_map]
      exact hv.conv_ok.length_windows
    have hds' := (length_new hf kernel).trans hds
    have hpads := length_spatialPads op pads shape
    have hwindows : (zipWith WindowDim.numWindows (op.windows kernel)
        (edgePadded (spatialPads op pads) (spatialShape op shape))).length = (spatialShape op shape).length := by
      rw [length_zipWith, hds, length_edgePadded hpads, min_self]
    refine eq_of_coord ?_ fun d hd => ?_
    · rw [hwindows, length_zipWith, hds', min_self]
    · have heq := hat (d + 2) (by simpa [ConvDims.output, hspatial] using hwindows ▸ hd)
      rw [hold, hnew] at heq
      exact heq.symm
  · intro hsizes
    have hsizes' : (new.conv kernel).outputSizes shape kernel =
        (op.conv kernel).outputSizes (edgePadded pads shape) kernel := by
      rw [hold, hnew, hsizes]
    rw [Conv.shape, Conv.shape, hsizes', hdims, hlen]

theorem length_windows_spatial :
    (op.windows kernel).length = (spatialShape op shape).length := by
  rw [spatialShape, length_map]
  exact hv.conv_ok.length_windows

end

theorem element_conv {x xp k : Tensor R} (hxp : pad pads 0 x = some xp) (hv : ConvVerified op pads x.shape k.shape)
    (hf : ConvFired op new pads) (htaps : HasElements op x.shape k.shape →
      SameTaps (op.windows k.shape) (new.windows k.shape) (spatialPads op pads) (spatialShape op x.shape)) {b f : Nat}
    (hb : b < coord x.shape op.dimensionNumbers.inputBatch / op.batchGroupCount)
    (hfeature : f < coord k.shape op.dimensionNumbers.kernelOutputFeature)
    (ho : o ∈ indices (zipWith WindowDim.numWindows (new.windows k.shape) (spatialShape op x.shape))) :
    (new.conv k.shape).element x k b f o = (op.conv k.shape).element xp k b f o := by
  have hds := length_windows_spatial hv
  have hds' := (length_new hf k.shape).trans hds
  have hok' := newConv_ok hv hf
  have hxpshape := shape_edgePadded hxp
  have holength : o.length = (spatialShape op x.shape).length := by
    rw [length_of_mem_indices ho, length_zipWith, hds', min_self]
  have hbatch : (new.conv k.shape).batch x.shape k.shape b f = (op.conv k.shape).batch xp.shape k.shape b f := by
    rw [hxpshape, Conv.batch, Conv.batch]
    change _ = f / (coord k.shape op.dimensionNumbers.kernelOutputFeature / op.batchGroupCount) *
      (coord (edgePadded pads x.shape) op.dimensionNumbers.inputBatch / op.batchGroupCount) + b
    rw [(edgePadded_input hv hf).1, hf.new_eq]
    rfl
  have hfeatures : (new.conv k.shape).feature = (op.conv k.shape).feature := by
    rw [hf.new_eq]
    rfl
  have hkernel : (new.conv k.shape).kernelPosition = (op.conv k.shape).kernelPosition := by
    refine funext fun w => kernelPosition_congr (window_new hf _) ?_ w
    rw [hf.new_eq]
    rfl
  have hdims : (new.conv k.shape).dims = (op.conv k.shape).dims := dims_new hf
  have hwindow : (new.conv k.shape).windows.map WindowDim.window = (op.conv k.shape).windows.map WindowDim.window :=
    window_new hf k.shape
  rw [Conv.element, Conv.element, hwindow, hdims]
  refine Finset.sum_congr rfl fun w hw => Finset.sum_congr rfl fun i hi => ?_
  have hi := Finset.mem_range.mp hi
  have hwlength : w.length = (spatialShape op x.shape).length := by
    rw [length_of_mem_indices hw, length_map]
    exact hds
  have hb' : (new.conv k.shape).batch x.shape k.shape b f < coord x.shape op.dimensionNumbers.inputBatch := by
    have hlt := hok'.batch_lt (b := b) (f := f)
    rw [hdims] at hlt
    refine hlt ?_ hfeature
    rw [hf.new_eq]
    exact hb
  have hfeature' : (new.conv k.shape).feature k.shape f i < coord x.shape op.dimensionNumbers.inputFeature := by
    have hlt := hok'.feature_lt (k := i) (f := f)
    rw [hdims] at hlt
    exact hlt hi hfeature
  have hhas : HasElements op x.shape k.shape :=
    ⟨Nat.pos_of_ne_zero fun h => by rw [h, Nat.zero_div] at hb; exact absurd hb (Nat.not_lt_zero _),
      by omega, lt_of_le_of_lt (Nat.zero_le i) hi⟩
  obtain ⟨hold, hnew⟩ := tap_conv hxp hv hf hb' hfeature' holength hwlength
  have hsrc : paddedSource (op.windows k.shape) (spatialPads op pads) (spatialShape op x.shape) o w =
      windowSource (new.windows k.shape) (spatialShape op x.shape) o w :=
    (paddedSource_eq_windowSource hds hds' hv.conv_ok.windows_ok (newWindows_ok hv hf) holength hwlength).mpr
      fun p hp => htaps hhas o ho w hw p hp
  rw [← hbatch, ← hfeatures, hnew, hold, hsrc, hkernel]

section

variable (hv : ConvVerified op pads shape kernel)

include hv

theorem preservesConv_of_same (hf : ConvFired op new pads)
    (hsizes : SameSizes (op.windows kernel) (new.windows kernel) (spatialPads op pads) (spatialShape op shape))
    (htaps : HasElements op shape kernel →
      SameTaps (op.windows kernel) (new.windows kernel) (spatialPads op pads) (spatialShape op shape)) :
    PreservesConv (0 : R) op new pads shape kernel := by
  rintro x k y rfl rfl hy
  obtain ⟨xp, hxp, hy⟩ := bind_eq_some_iff.mp hy
  obtain ⟨hok, hyshape, hyread⟩ := read_convolution hy
  have hok' := newConv_ok hv hf
  obtain ⟨z, hz⟩ := exists_convolution hok'
  obtain ⟨-, hzshape, hzread⟩ := read_convolution hz
  have hshape : z.shape = y.shape := by
    rw [hzshape, hyshape, shape_edgePadded hxp]
    exact (shape_conv_iff hv hf).mpr hsizes
  refine ⟨z, hz, same_of_read hshape fun u hu => ?_⟩
  have hdims : (new.conv k.shape).dims = (op.conv k.shape).dims := dims_new hf
  have hgroups : (new.conv k.shape).batchGroups = op.batchGroupCount := by
    rw [hf.new_eq]
    rfl
  obtain ⟨hb, hfeature, ho⟩ := within_convShape hok' (hzshape ▸ hu)
  rw [hzread u hu, hyread u (hshape ▸ hu)]
  rw [hdims] at hb hfeature ho ⊢
  rw [hgroups] at hb
  exact element_conv hxp hv hf htaps hb hfeature ho

theorem results_of_preservesConv (h : PreservesConv (0 : R) op new pads shape kernel)
    {x k : Tensor R} (hx : x.shape = shape) (hk : k.shape = kernel) : ∃ xp y z, pad pads 0 x = some xp ∧
      convolution (op.conv kernel) xp k = some y ∧ convolution (new.conv kernel) x k = some z ∧ Same z y := by
  obtain ⟨xp, hxp⟩ : ∃ xp, pad pads 0 x = some xp := ⟨_, if_pos (hx.symm ▸ hv.pads_ok)⟩
  have hok := hv.conv_ok
  rw [← hk, ← hx, ← shape_edgePadded hxp] at hok
  obtain ⟨y, hy⟩ := exists_convolution hok
  rw [hk] at hy
  obtain ⟨z, hz, hsame⟩ := h x k y hx hk (by rw [hxp]; exact hy)
  exact ⟨xp, y, z, hxp, hy, hz, hsame⟩

section

variable (hf : ConvFired op new pads) (h : PreservesConv (0 : R) op new pads shape kernel)

include hf h

theorem sameSizes_of_preservesConv :
    SameSizes (op.windows kernel) (new.windows kernel) (spatialPads op pads) (spatialShape op shape) := by
  obtain ⟨xp, y, z, hxp, hy, hz, hsame⟩ := results_of_preservesConv hv h (x := splat shape 0) (k := splat kernel 0)
    rfl rfl
  have hxpshape : xp.shape = edgePadded pads shape := shape_edgePadded hxp
  refine (shape_conv_iff hv hf).mp ?_
  rw [← hxpshape]
  exact (read_convolution hz).2.1.symm.trans (hsame.shape_eq.trans (read_convolution hy).2.1)

/-- Both windows have the same at a position, whatever the operand is: the kernel that has a one there shows it. -/
theorem tap_of_preservesConv (hhas : HasElements op shape kernel) {x xp : Tensor R} (hx : x.shape = shape)
    (hxp : pad pads 0 x = some xp)
    (ho : o ∈ indices (zipWith WindowDim.numWindows (new.windows kernel) (spatialShape op shape)))
    (hw : w ∈ indices ((op.windows kernel).map WindowDim.window)) :
    (new.conv kernel).tap x 0 0 o w = (op.conv kernel).tap xp 0 0 o w := by
  subst hx
  have hsizes := sameSizes_of_preservesConv hv hf h
  have hkernel : (new.conv kernel).kernelPosition w = (op.conv kernel).kernelPosition w := by
    refine kernelPosition_congr (window_new hf _) ?_ w
    rw [hf.new_eq]
    rfl
  obtain ⟨xp', y, z, hxp', hy, hz, hsame⟩ := results_of_preservesConv hv h (x := x) (k := markAt R kernel
    op.dimensionNumbers.kernelInputFeature op.dimensionNumbers.kernelOutputFeature op.dimensionNumbers.kernelSpatial
    0 0 ((op.conv kernel).kernelPosition w)) rfl rfl
  cases hxp.symm.trans hxp'
  have hinput := edgePadded_input hv hf
  rw [← shape_edgePadded hxp] at hinput
  have hbatch : 0 < coord xp.shape op.dimensionNumbers.inputBatch := hinput.1.symm ▸ hhas.1
  have ho' : o ∈ indices (zipWith WindowDim.numWindows (op.windows kernel) (spatialShape op xp.shape)) := by
    rw [hinput.2.2, hsizes]
    exact ho
  obtain ⟨-, hold⟩ := read_convolution_markAt hy hbatch hhas.2.1 hhas.2.2 hw ho'
  rw [← hkernel] at hz
  have hnew := @read_convolution_markAt R _ (new.conv kernel) x kernel z o w
  rw [show (new.conv kernel).dims = (op.conv kernel).dims from dims_new hf] at hnew
  obtain ⟨hu, hnew⟩ := hnew hz hhas.1 hhas.2.1 hhas.2.2 ((window_new hf kernel).symm ▸ hw) ho
  exact hnew.symm.trans ((hsame.read_eq hu).trans hold)

end

end

section

variable [Nontrivial R] (hv : ConvVerified op pads shape kernel) (hf : ConvFired op new pads)

include hv hf

theorem sameTaps_of_preservesConv (h : PreservesConv (0 : R) op new pads shape kernel)
    (hhas : HasElements op shape kernel) :
    SameTaps (op.windows kernel) (new.windows kernel) (spatialPads op pads) (spatialShape op shape) := by
  intro o ho w hw
  have hds := length_windows_spatial hv
  have hds' := (length_new hf kernel).trans hds
  have holength : o.length = (spatialShape op shape).length := by
    rw [length_of_mem_indices ho, length_zipWith, hds', min_self]
  have hwlength : w.length = (spatialShape op shape).length := by
    rw [length_of_mem_indices hw, length_map, hds]
  have hiff : ∀ p, paddedSource (op.windows kernel) (spatialPads op pads) (spatialShape op shape) o w = some p ↔ _ :=
    fun p => paddedSource_eq_some hds hv.conv_ok.windows_ok
  have hiff' := fun p => windowSource_iff_covers (p := p) hds' (newWindows_ok hv hf) holength hwlength
  refine (paddedSource_eq_windowSource hds hds' hv.conv_ok.windows_ok (newWindows_ok hv hf) holength hwlength).mp
    (ext fun p => ?_)
  -- an operand that has a one at `p` only
  let x := markAt R shape op.dimensionNumbers.inputBatch op.dimensionNumbers.inputFeature
    op.dimensionNumbers.inputSpatial 0 0 p
  have hmark : ∀ s : Option (List Nat), (∀ q, s = some q → q ∈ indices (spatialShape op shape)) →
      ((s.map fun q => x.read (Tensor.place op.dimensionNumbers.input (coord (0 :: 0 :: q)))).getD 0 = 1 ↔ s = some p) := by
    intro s hs
    cases s with
    | none => exact iff_of_false zero_ne_one (some_ne_none p).symm
    | some q =>
      have hq : q.length = op.dimensionNumbers.inputSpatial.length :=
        (length_of_mem_indices (hs q rfl)).trans (length_map _)
      have hperm : op.dimensionNumbers.input.Perm (range shape.length) :=
        length_edgePadded hv.pads_ok.length_eq ▸ hv.conv_ok.input_perm
      have hread : x.read (Tensor.place op.dimensionNumbers.input (coord (0 :: 0 :: q))) =
        if 0 = 0 ∧ 0 = 0 ∧ q = p then 1 else 0 := read_markAt hperm hq
      rw [map_some, getD_some, hread, some.injEq]
      simp only [true_and, ite_eq_left_iff, zero_ne_one, imp_false, not_not]
  obtain ⟨xp, hxp⟩ : ∃ xp, pad pads 0 x = some xp := ⟨_, if_pos hv.pads_ok⟩
  have hfeature : 0 < coord shape op.dimensionNumbers.inputFeature := by
    have hlt := (newConv_ok hv hf).feature_lt (k := 0) (f := 0)
    rw [show (new.conv kernel).dims = (op.conv kernel).dims from dims_new hf] at hlt
    exact lt_of_le_of_lt (Nat.zero_le _) (hlt hhas.2.2 hhas.2.1)
  obtain ⟨hold, hnew⟩ := tap_conv hxp hv hf hhas.1 hfeature holength hwlength
  rw [← hmark _ fun q hq => ((hiff q).mp hq).1, ← hmark _ fun q hq => ((hiff' q).mp hq).1]
  exact Eq.congr_left (hold.symm.trans ((tap_of_preservesConv hv hf h hhas rfl hxp ho hw).symm.trans hnew))

theorem preservesConv_iff_same :
    PreservesConv (0 : R) op new pads shape kernel ↔
      SameSizes (op.windows kernel) (new.windows kernel) (spatialPads op pads) (spatialShape op shape) ∧
        (HasElements op shape kernel →
          SameTaps (op.windows kernel) (new.windows kernel) (spatialPads op pads) (spatialShape op shape)) :=
  ⟨fun h => ⟨sameSizes_of_preservesConv hv hf h, sameTaps_of_preservesConv hv hf h⟩,
    fun h => preservesConv_of_same hv hf h.1 h.2⟩

end

end

/-! ### Both patterns -/

/-- Either pattern keeps the result if and only if the windows are as many as over the padded operand and at the
same elements. -/
theorem pad_folded_iff (pads : List PadDim) (shape : List Nat) :
    (∀ {α V : Type} [Nontrivial α] [DecidableEq V] (f : α → α → α) [Std.Commutative f] [Std.Associative f]
      (value : V → α) (op new : ReduceWindowOp) (paddingValue initValue : V),
      (∀ a, f (value initValue) a = a) → Verified op pads shape →
      PadReduceWindow op pads paddingValue initValue = some new →
      (Preserves f (value paddingValue) (value initValue) op new pads shape ↔
        SameSizes op.dims (withEdges op.dims pads) pads shape ∧
          SameElements op.dims (withEdges op.dims pads) pads shape) ∧
      (Unaffected op.dims pads shape → Preserves f (value paddingValue) (value initValue) op new pads shape)) ∧
    ∀ {R : Type} [CommRing R] [Nontrivial R] [DecidableEq R] (op new : ConvolutionOp) (kernel : List Nat)
      (padding : R) (padValAttr : Option R), (∀ a ∈ padValAttr, a = padding) → ConvVerified op pads shape kernel → ConvolutionPad op pads padValAttr = some new →
      (PreservesConv padding op new pads shape kernel ↔
        SameSizes (op.windows kernel) (withEdges (op.windows kernel) (spatialPads op pads)) (spatialPads op pads)
          (spatialShape op shape) ∧ (HasElements op shape kernel →
        SameTaps (op.windows kernel) (withEdges (op.windows kernel) (spatialPads op pads)) (spatialPads op pads)
          (spatialShape op shape))) ∧
      (Unaffected (op.windows kernel) (spatialPads op pads) (spatialShape op shape) →
        PreservesConv padding op new pads shape kernel) := by
  constructor
  · intro α V _ _ f _ _ value op new paddingValue initValue hneutral hv h
    obtain ⟨rfl, hf⟩ := fired_of_eq_some hv h
    have hrank := hv.length_windowDimensions
    have hpads : pads.length = op.windowDimensions.length := hv.pads_ok.length_eq.trans hrank.symm
    have hds : op.dims.length = shape.length := by rw [ReduceWindowOp.dims, length_map, length_range, hrank]
    have hds' : new.dims.length = shape.length := (length_newDims hf).trans hrank
    have htakes : TakesPads op.dims new.dims pads shape := fun d hd => windowDim_new hf hpads (hrank.symm ▸ hd)
    have hiff := preserves_iff_same hneutral hv hf
    refine ⟨withEdges_of_takesPads hds hds' hv.pads_ok.length_eq htakes ▸ hiff, fun hunaffected => hiff.mpr ?_⟩
    obtain ⟨hsizes, htaps⟩ := same_of_unaffected hds hds' hv.dims_ok hv.pads_ok hf.edge htakes hunaffected
    exact ⟨hsizes, sameElements_of_sameTaps htaps⟩
  · intro R _ _ _ op new kernel padding padValAttr hpadding hv h
    obtain ⟨rfl, hf⟩ := convFired_of_eq_some h
    obtain rfl := hpadding 0 rfl
    have hds := length_windows_spatial hv
    have hds' := (length_new hf kernel).trans hds
    have htakes := takesPads_conv hv hf
    have hiff := preservesConv_iff_same (R := R) hv hf
    refine ⟨withEdges_of_takesPads hds hds' (length_spatialPads op pads shape) htakes ▸ hiff, fun hunaffected => ?_⟩
    obtain ⟨hsizes, htaps⟩ := same_of_unaffected hds hds' hv.conv_ok.windows_ok (spatialPads_ok hv)
      (interior_spatialPads hf) htakes hunaffected
    exact preservesConv_of_same hv hf hsizes fun _ => htaps

def pairs (baseDilations : Option (List Nat)) : ReduceWindowOp :=
  { windowDimensions := [2], windowStrides := none, baseDilations, windowDilations := none, padding := none }

theorem verified_pairs_dilated : Verified (pairs (some [2])) [⟨1, 0, 0⟩] [2] :=
  ⟨rfl, by simp [pairs], by decide, by decide⟩

/-- A convolution of a row, with one feature, that may have padding. -/
def row (padding : Option (List (Int × Int))) : ConvolutionOp :=
  { dimensionNumbers := ⟨0, 1, [2], 0, 1, [2], 0, 1, [2]⟩, windowStrides := none, padding, lhsDilation := none
    rhsDilation := none, windowReversal := none, featureGroupCount := 1, batchGroupCount := 1 }

def rowPads : List PadDim := [⟨0, 0, 0⟩, ⟨0, 0, 0⟩, ⟨1, 0, 0⟩]

theorem verified_row {padding : Option (List (Int × Int))}
    (hok : ((row padding).conv [1, 1, 1]).Ok (edgePadded rowPads [1, 1, 2]) [1, 1, 1]) :
    ConvVerified (row padding) rowPads [1, 1, 2] [1, 1, 1] := ⟨by decide, hok⟩

theorem pad_folded_pairs_row : (∃ new, PadReduceWindow (pairs none) [⟨1, 1, 0⟩] () () = some new ∧
      Preserves (fun a b : Int => a + b) 0 0 (pairs none) new [⟨1, 1, 0⟩] [3]) ∧
    ∃ new, ConvolutionPad (row none) rowPads (some (0 : Int)) = some new ∧
      PreservesConv (0 : Int) (row none) new rowPads [1, 1, 2] [1, 1, 1] :=
  ⟨⟨_, rfl, ((pad_folded_iff [⟨1, 1, 0⟩] [3]).1 (fun a b : Int => a + b) (fun _ : Unit => 0) (pairs none) _ () ()
      zero_add ⟨rfl, by simp [pairs], by decide, by decide⟩ rfl).2 (by decide)⟩,
    ⟨_, rfl, ((pad_folded_iff rowPads [1, 1, 2]).2 (row none) _ [1, 1, 1] 0 (some 0) (by simp)
      (verified_row (by decide)) rfl).2 (by decide)⟩⟩

/-- The edge padding is not dilated, and the padding of the convolution is dropped. -/
theorem pad_not_folded : (∃ new, PadReduceWindow (pairs (some [2])) [⟨1, 0, 0⟩] () () = some new ∧
      ¬Preserves (fun a b : Int => a + b) 0 0 (pairs (some [2])) new [⟨1, 0, 0⟩] [2]) ∧
    ∃ new, ConvolutionPad (row (some [(1, 0)])) rowPads (some (0 : Int)) = some new ∧
      ¬PreservesConv (0 : Int) (row (some [(1, 0)])) new rowPads [1, 1, 2] [1, 1, 1] := by
  refine ⟨⟨_, rfl, fun h => ?_⟩, ⟨_, rfl, fun h => ?_⟩⟩
  · obtain ⟨-, hf⟩ := @fired_of_eq_some Unit _ _ _ _ _ () () verified_pairs_dilated rfl
    have hsame := (preserves_iff_same zero_add verified_pairs_dilated hf).mp h
    exact absurd hsame.1 (by decide)
  · obtain ⟨-, hf⟩ := @convFired_of_eq_some Int _ _ (row (some [(1, 0)])) _ rowPads (some 0) rfl
    have hsame := (preservesConv_iff_same (verified_row (by decide)) hf).mp h
    exact absurd hsame.1 (by decide)

end EnzymeJax.PadsIntoWindows
