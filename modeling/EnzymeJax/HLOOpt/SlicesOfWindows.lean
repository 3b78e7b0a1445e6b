import EnzymeJax.Library.Windows

/-!
# Slices of windows that are reduced

A slice of a `reduce_window` is the `reduce_window` of a slice of the operand, or, for the last element of the only
dimension in which the window is the whole dimension, a `reduce`. The windows and the padding of the other
dimensions are not looked at in the latter case.
-/

namespace EnzymeJax.SlicesOfWindows

open Tensor List Option Function

/-! ### The pattern -/

/-- The attributes of a `reduce_window` of one operand. -/
structure ReduceWindowOp where
  windowDimensions : List Nat
  windowStrides : Option (List Nat)
  baseDilations : Option (List Nat)
  windowDilations : Option (List Nat)
  padding : Option (List (Int × Int))

namespace ReduceWindowOp

/-- The windows, where strides and dilations that are left out are 1 and padding is 0. -/
def dims (op : ReduceWindowOp) : List WindowDim :=
  (List.range op.windowDimensions.length).map fun i =>
    { window := coord op.windowDimensions i
      stride := op.windowStrides.elim 1 (coord · i)
      baseDilation := op.baseDilations.elim 1 (coord · i)
      windowDilation := op.windowDilations.elim 1 (coord · i)
      padLow := (op.padding.elim (0, 0) (·.getD i (0, 0))).1
      padHigh := (op.padding.elim (0, 0) (·.getD i (0, 0))).2 }

def stridesAllOne (op : ReduceWindowOp) : Bool := op.windowStrides.all (·.all (· = 1))

def windowDilationsAllOne (op : ReduceWindowOp) : Bool := op.windowDilations.all (·.all (· = 1))

def baseDilationsAllOne (op : ReduceWindowOp) : Bool := op.baseDilations.all (·.all (· = 1))

def zeroPadding (op : ReduceWindowOp) : Bool := op.padding.all (·.all fun val => val.1 = 0 ∧ val.2 = 0)

end ReduceWindowOp

/-- What the slice is replaced by. -/
inductive NewOp
  | reduceWindow (newSlice : List SliceDim)
  | reduce (reductionDim : Nat)

/-- The only dimension, from `i` on, in which the window is the whole dimension. -/
def findReductionDim : Nat → Option Nat → List Nat → List Nat → Option (Option Nat)
  | i, reductionDim, window :: windowDims, n :: inputShape =>
    if window = n then
      if reductionDim.isSome then none else findReductionDim (i + 1) (some i) windowDims inputShape
    else findReductionDim (i + 1) reductionDim windowDims inputShape
  | _, reductionDim, _, _ => some reductionDim

/-- The slice takes the last element of the reduction dimension, and all of the others. -/
def takesLast (windowDims inputShape : List Nat) (reductionDim : Nat) (slice : List SliceDim) : Bool :=
  slice.zipIdx.all fun (s, i) => s.stride = 1 ∧
    if i = reductionDim then s.start = coord windowDims i - 1 ∧ s.limit = coord windowDims i
    else s.start = 0 ∧ s.limit = coord inputShape i

def SliceReduceWindow (op : ReduceWindowOp) (inputShape : List Nat) (slice : List SliceDim) : Option NewOp :=
  if op.stridesAllOne ∧ op.windowDilationsAllOne ∧ op.baseDilationsAllOne ∧ op.zeroPadding ∧
      slice.all fun s => s.stride = 1 then
    some (.reduceWindow (List.zipWith (fun s (window : Nat) => ⟨s.start, s.limit + window - 1, 1⟩) slice
      op.windowDimensions))
  else
    match op.padding with
    | none => none
    | some paddingVals =>
      if ¬(op.stridesAllOne ∧ op.windowDilationsAllOne ∧ op.baseDilationsAllOne) then none
      else do
        let reductionDim ← findReductionDim 0 none op.windowDimensions inputShape
        let reductionDim ← reductionDim
        if (paddingVals.getD reductionDim (0, 0)).1 ≠ coord op.windowDimensions reductionDim - 1 then none
        else if takesLast op.windowDimensions inputShape reductionDim slice then some (.reduce reductionDim)
        else none

section

variable {α : Type} (f : α → α → α) [Std.Commutative f] [Std.Associative f] (init : α)

def original (op : ReduceWindowOp) (ds : List SliceDim) (x : Tensor α) : Option (Tensor α) :=
  (reduceWindows f init op.dims x).bind (slice ds)

/-- The result of the `reduce` is reshaped to the shape of the slice. -/
def NewOp.eval (op : ReduceWindowOp) (ds : List SliceDim) (x : Tensor α) : NewOp → Option (Tensor α)
  | reduceWindow newSlice => (slice newSlice x).bind (reduceWindows f init op.dims)
  | reduce reductionDim => (Tensor.reduce f init [reductionDim] x).bind (reshape (ds.map SliceDim.size))

/-- Whatever the operand is, what replaces the slice is the slice. -/
def Preserves (op : ReduceWindowOp) (shape : List Nat) (ds : List SliceDim) (new : NewOp) : Prop :=
  ∀ x y : Tensor α, x.shape = shape → original f init op ds x = some y →
    ∃ z, new.eval f init op ds x = some z ∧ Same z y

end

structure Verified (op : ReduceWindowOp) (shape : List Nat) (ds : List SliceDim) : Prop where
  length_windowDimensions : op.windowDimensions.length = shape.length
  length_windowStrides : ∀ l ∈ op.windowStrides, l.length = shape.length
  length_baseDilations : ∀ l ∈ op.baseDilations, l.length = shape.length
  length_windowDilations : ∀ l ∈ op.windowDilations, l.length = shape.length
  length_padding : ∀ l ∈ op.padding, l.length = shape.length
  dims_ok : ∀ d ∈ op.dims, d.Ok
  slice_ok : List.Forall₂ SliceDim.Ok ds (List.zipWith WindowDim.numWindows op.dims shape)

/-! ### What the checks say -/

section

variable {op : ReduceWindowOp} {shape : List Nat} {ds : List SliceDim} {d : Nat}

theorem getD_of_all {β : Type} {p : β → Bool} {l : List β} (h : l.all p = true) (hd : d < l.length) (b : β) :
    p (l.getD d b) = true := by
  rw [getD_eq_getElem _ _ hd]
  exact all_eq_true.mp h _ (getElem_mem hd)

theorem elim_of_all {attr : Option (List Nat)} {n : Nat} (hlen : ∀ l ∈ attr, l.length = n)
    (h : attr.all (·.all (· = 1)) = true) (hd : d < n) : attr.elim 1 (coord · d) = 1 := by
  cases attr with
  | none => rfl
  | some l => exact of_decide_eq_true (getD_of_all h (hlen l rfl ▸ hd) 0)

theorem windowDim_dims (op : ReduceWindowOp) (hd : d < op.windowDimensions.length) : windowDim op.dims d =
    { window := coord op.windowDimensions d
      stride := op.windowStrides.elim 1 (coord · d)
      baseDilation := op.baseDilations.elim 1 (coord · d)
      windowDilation := op.windowDilations.elim 1 (coord · d)
      padLow := (op.padding.elim (0, 0) (·.getD d (0, 0))).1
      padHigh := (op.padding.elim (0, 0) (·.getD d (0, 0))).2 } := by
  rw [windowDim_eq_getElem (by rwa [ReduceWindowOp.dims, length_map, length_range])]
  simp only [ReduceWindowOp.dims, getElem_map, getElem_range]

section

variable (hv : Verified op shape ds)

include hv

theorem length_dims : op.dims.length = shape.length := by
  rw [ReduceWindowOp.dims, length_map, length_range, hv.length_windowDimensions]

theorem unit_of_checks (hstrides : op.stridesAllOne = true) (hwindow : op.windowDilationsAllOne = true)
    (hbase : op.baseDilationsAllOne = true) (hd : d < shape.length) : (windowDim op.dims d).Unit := by
  rw [windowDim_dims op (hv.length_windowDimensions ▸ hd)]
  exact ⟨elim_of_all hv.length_windowStrides hstrides hd, elim_of_all hv.length_baseDilations hbase hd,
    elim_of_all hv.length_windowDilations hwindow hd⟩

theorem padding_of_zero (h : op.zeroPadding = true) (hd : d < shape.length) :
    (windowDim op.dims d).padLow = 0 ∧ (windowDim op.dims d).padHigh = 0 := by
  rw [windowDim_dims op (hv.length_windowDimensions ▸ hd)]
  cases hpadding : op.padding with
  | none => exact ⟨rfl, rfl⟩
  | some l =>
    rw [ReduceWindowOp.zeroPadding, hpadding] at h
    have hl : d < l.length := hv.length_padding l hpadding ▸ hd
    exact of_decide_eq_true (getD_of_all h hl (0, 0))

theorem window_pos (hd : d < shape.length) : 0 < (windowDim op.dims d).window := by
  rw [windowDim_eq_getElem ((length_dims hv).symm ▸ hd)]
  exact (hv.dims_ok _ (getElem_mem _)).1

end

variable {windowDims inputShape : List Nat}

theorem findReductionDim_eq_some (hlen : windowDims.length = inputShape.length) {i : Nat}
    {found r : Option Nat} (h : findReductionDim i found windowDims inputShape = some r) :
    (r = found ∧ ∀ d < inputShape.length, coord windowDims d ≠ coord inputShape d) ∨
      (found = none ∧ ∃ d < inputShape.length, r = some (i + d) ∧ coord windowDims d = coord inputShape d) := by
  induction windowDims generalizing inputShape i found with
  | nil =>
    obtain rfl := length_eq_zero_iff.mp hlen.symm
    exact .inl ⟨(some.inj h).symm, fun d hd => absurd hd (Nat.not_lt_zero d)⟩
  | cons window windowDims ih =>
    obtain ⟨n, inputShape, rfl⟩ := exists_cons_of_length_eq_add_one hlen.symm
    have ih := @ih _ (add_right_cancel hlen)
    rw [findReductionDim] at h
    split_ifs at h with heq hfound
    · rcases ih h with ⟨hr, -⟩ | ⟨hnone, -⟩
      · refine .inr ⟨?_, 0, Nat.succ_pos _, hr, heq⟩
        cases found with
        | none => rfl
        | some e => exact absurd rfl hfound
      · cases hnone
    · rcases ih h with ⟨hr, hne⟩ | ⟨hnone, d, hd, hr, heq'⟩
      · refine .inl ⟨hr, fun d hd => ?_⟩
        cases d with
        | zero => exact heq
        | succ d => exact hne d (Nat.lt_of_succ_lt_succ hd)
      · exact .inr ⟨hnone, d + 1, Nat.succ_lt_succ hd, by rw [hr, add_assoc, add_comm 1], heq'⟩

theorem takesLast_eq {r : Nat} (h : takesLast windowDims inputShape r ds = true) (hd : d < ds.length) :
    sliceDim ds d = if d = r then ⟨coord windowDims d - 1, coord windowDims d, 1⟩
      else ⟨0, coord inputShape d, 1⟩ := by
  have hmem : (ds[d], d) ∈ ds.zipIdx := mk_mem_zipIdx_iff_getElem?.mpr (getElem?_eq_getElem hd)
  obtain ⟨hstride, hbounds⟩ := of_decide_eq_true (all_eq_true.mp h _ hmem)
  rw [sliceDim_eq_getElem hd]
  generalize ds[d] = s at hstride hbounds
  obtain ⟨start, limit, stride⟩ := s
  dsimp only at hstride hbounds
  split at hbounds
  · rename_i hdr
    rw [if_pos hdr, hstride, hbounds.1, hbounds.2]
  · rename_i hdr
    rw [if_neg hdr, hstride, hbounds.1, hbounds.2]

end

/-! ### Windows of slices -/

def newSlice (ds : List SliceDim) (windowDims : List Nat) : List SliceDim :=
  List.zipWith (fun s (window : Nat) => ⟨s.start, s.limit + window - 1, 1⟩) ds windowDims

/-- No window is longer than the operand by more than one element. -/
def WindowsFit (windowDims shape : List Nat) : Prop := ∀ d < shape.length, coord windowDims d ≤ coord shape d + 1

section

variable {α : Type} {f : α → α → α} [Std.Commutative f] [Std.Associative f] {init : α} {op : ReduceWindowOp}
  {shape : List Nat} {ds : List SliceDim} {x y z : Tensor α} {d : Nat}

theorem original_eq_some (h : original f init op ds x = some z) :
    ∃ y, reduceWindows f init op.dims x = some y ∧ slice ds y = some z := bind_eq_some_iff.mp h

theorem window_eq (hv : Verified op shape ds) (hd : d < shape.length) :
    (windowDim op.dims d).window = coord op.windowDimensions d := by
  rw [windowDim_dims op (hv.length_windowDimensions ▸ hd)]

theorem exists_original (f : α → α → α) [Std.Commutative f] [Std.Associative f] (init : α)
    (hv : Verified op shape ds) (hx : x.shape = shape) : ∃ z, original f init op ds x = some z := by
  obtain ⟨y, hy⟩ := exists_reduceWindows f init (x := x) (hx.symm ▸ length_dims hv) hv.dims_ok
  have hyshape : y.shape = zipWith WindowDim.numWindows op.dims shape := by
    obtain ⟨-, h⟩ := ite_none_right_eq_some.mp hy
    cases h
    rw [hx]
  exact ⟨_, bind_eq_some_iff.mpr ⟨y, hy, if_pos (hyshape.symm ▸ hv.slice_ok)⟩⟩

theorem sliceDim_newSlice (hv : Verified op shape ds) (hds : ds.length = shape.length) (hd : d < shape.length) :
    sliceDim (newSlice ds op.windowDimensions) d =
      ⟨(sliceDim ds d).start, (sliceDim ds d).limit + (windowDim op.dims d).window - 1, 1⟩ := by
  have hd' : d < ds.length := hds.symm ▸ hd
  have hwindow : d < op.windowDimensions.length := hv.length_windowDimensions.symm ▸ hd
  rw [sliceDim_eq_getElem (by simp [newSlice, hd', hwindow]), window_eq hv hd, coord_eq_getElem hwindow,
    sliceDim_eq_getElem hd']
  simp only [newSlice, getElem_zipWith]

theorem length_newSlice (hv : Verified op shape ds) (hds : ds.length = shape.length) :
    (newSlice ds op.windowDimensions).length = shape.length := by
  rw [newSlice, length_zipWith, hds, hv.length_windowDimensions, min_self]

/-- The checks of both rewrites. -/
structure UnitWindows (op : ReduceWindowOp) (shape : List Nat) (ds : List SliceDim) : Prop where
  unit : ∀ d < shape.length, (windowDim op.dims d).Unit
  padding : ∀ d < shape.length, (windowDim op.dims d).padLow = 0 ∧ (windowDim op.dims d).padHigh = 0
  strides : ∀ d < shape.length, (sliceDim ds d).stride = 1

theorem limit_le (hv : Verified op shape ds) (hunits : UnitWindows op shape ds) (hd : d < shape.length) :
    0 ≤ (sliceDim ds d).start ∧ (sliceDim ds d).start ≤ (sliceDim ds d).limit ∧
      (sliceDim ds d).limit ≤ ((coord shape d : Int) - (windowDim op.dims d).window + 1).toNat := by
  obtain ⟨hlen, hok⟩ := forall₂_ok_iff.mp hv.slice_ok
  have hrank : (zipWith WindowDim.numWindows op.dims shape).length = shape.length := by
    rw [length_zipWith, length_dims hv, min_self]
  obtain ⟨hstart, hle, hlimit, -⟩ := hok d (by rwa [hlen, hrank])
  obtain ⟨hlow, hhigh⟩ := hunits.padding d hd
  rw [coord_eq_getElem (by rwa [hrank]), getElem_zipWith, ← windowDim_eq_getElem, ← coord_eq_getElem,
    WindowDim.numWindows_of_unit (hunits.unit d hd) (window_pos hv hd), hlow, hhigh, zero_add, add_zero] at hlimit
  exact ⟨hstart, hle, hlimit⟩

section

variable (hv : Verified op shape ds) (hds : ds.length = shape.length) (hunits : UnitWindows op shape ds)

include hv hds hunits

/-- The slice of the operand is well formed if and only if no window is too long. -/
theorem newSlice_ok_iff :
    (∀ d < shape.length, (sliceDim (newSlice ds op.windowDimensions) d).Ok (coord shape d)) ↔
      WindowsFit op.windowDimensions shape := by
  refine forall₂_congr fun d hd => ?_
  obtain ⟨hstart, hle, hlimit⟩ := limit_le hv hunits hd
  have hpos := window_pos hv hd
  rw [sliceDim_newSlice hv hds hd, ← window_eq hv hd]
  constructor
  · rintro ⟨-, -, hfit, -⟩
    dsimp only at hfit
    omega
  · intro hfit
    exact ⟨hstart, by dsimp only; omega, by dsimp only; omega, Int.one_pos⟩

theorem windows_of_slice (hfit : WindowsFit op.windowDimensions shape) (hx : x.shape = shape)
    (hz : original f init op ds x = some z) :
    ∃ w, (slice (newSlice ds op.windowDimensions) x).bind (reduceWindows f init op.dims) = some w ∧ Same w z := by
  obtain ⟨y, hy, hz⟩ := original_eq_some hz
  have hok := (newSlice_ok_iff hv hds hunits).mpr hfit
  have hnewLength := length_newSlice hv hds
  have hdims := length_dims hv
  obtain ⟨x', hx'⟩ : ∃ x', slice (newSlice ds op.windowDimensions) x = some x' :=
    exists_slice (hnewLength.trans (congrArg _ hx.symm)) fun d hd => hx.symm ▸ hok d (hnewLength ▸ hd)
  obtain ⟨-, -, -, hread⟩ := read_slice hx'
  have hx'rank : x'.shape.length = shape.length := (length_slice hx').trans hnewLength
  obtain ⟨w, hw⟩ := exists_reduceWindows f init (x := x') (hdims.trans hx'rank.symm) hv.dims_ok
  obtain ⟨-, -, hwrank, hwsize⟩ := shape_reduceWindows hw
  obtain ⟨-, -, hyrank, hysize⟩ := shape_reduceWindows hy
  obtain ⟨-, -, hzok, hzread⟩ := read_slice hz
  rw [hx'rank] at hwrank hwsize
  rw [hx] at hyrank hysize
  have hx'size : ∀ d < shape.length, (coord x'.shape d : Int) =
      (sliceDim ds d).limit + (windowDim op.dims d).window - 1 - (sliceDim ds d).start := by
    intro d hd
    obtain ⟨hstart, hle, -⟩ := limit_le hv hunits hd
    have hpos := window_pos hv hd
    rw [coord_slice hx' (hnewLength.symm ▸ hd), sliceDim_newSlice hv hds hd, SliceDim.size, Int.ediv_one]
    dsimp only
    omega
  have hwz : ∀ d < shape.length, (coord w.shape d : Int) = (sliceDim ds d).limit - (sliceDim ds d).start := by
    intro d hd
    obtain ⟨hstart, hle, -⟩ := limit_le hv hunits hd
    have hpos := window_pos hv hd
    obtain ⟨hlow, hhigh⟩ := hunits.padding d hd
    have hsize := hx'size d hd
    rw [hwsize d hd, WindowDim.numWindows_of_unit (hunits.unit d hd) hpos, hlow, hhigh]
    omega
  refine ⟨w, bind_eq_some_iff.mpr ⟨x', hx', hw⟩, same_of_read ?_ fun c hc => ?_⟩
  · refine eq_of_coord (by rw [hwrank, length_slice hz, hds]) fun d hd => ?_
    have hd' : d < shape.length := hwrank ▸ hd
    obtain ⟨hstart, hle, -⟩ := limit_le hv hunits hd'
    have hsize := hwz d hd'
    rw [coord_slice hz (hds.symm ▸ hd'), SliceDim.size, hunits.strides d hd', Int.ediv_one]
    omega
  · have hlt : ∀ d < shape.length, (c d : Int) < (sliceDim ds d).limit - (sliceDim ds d).start := by
      intro d hd
      rw [← hwz d hd]
      exact_mod_cast hc d (hwrank.symm ▸ hd)
    have hsrc : ∀ d < shape.length, ((sliceDim ds d).source (c d) : Int) = (sliceDim ds d).start + c d := by
      intro d hd
      rw [SliceDim.source_of_ok (hzok d (hds.symm ▸ hd)), hunits.strides d hd, mul_one]
    have hcz : Within z.shape c := by
      intro d hd
      rw [length_slice hz, hds] at hd
      rw [coord_slice hz (hds.symm ▸ hd), SliceDim.lt_size_iff (by rw [hunits.strides d hd]; exact Int.one_pos),
        hunits.strides d hd]
      have hbound := hlt d hd
      omega
    rw [hzread c hcz, read_windows hw (hx'rank.symm ▸ hunits.unit) (fun d hd => (hunits.padding d (hx'rank ▸ hd)).1),
      read_windows hy (hx.symm ▸ hunits.unit) fun d hd => (hunits.padding d (hx ▸ hd)).1]
    · refine Finset.fold_congr fun k hk => ?_
      have hklt : ∀ d < shape.length, coord k d < (windowDim op.dims d).window := by
        intro d hd
        have hlt := coord_lt hk (d := d) (by rwa [length_map, hdims])
        rwa [coord_map _ _ (hdims.symm ▸ hd), ← windowDim_eq_getElem] at hlt
      rw [hread]
      · refine read_congr x fun d hd => ?_
        have hd' : d < shape.length := hx ▸ hd
        have hat := hsrc d hd'
        rw [sliceDim_newSlice hv hds hd', SliceDim.source]
        dsimp only
        push_cast
        omega
      · intro d hd
        have hd' : d < shape.length := hx'rank ▸ hd
        have hsize := hx'size d hd'
        have hbound := hlt d hd'
        have hkd := hklt d hd'
        beta_reduce
        omega
    · intro d hd
      have hd' : d < shape.length := hx ▸ hd
      obtain ⟨hstart, hle, hlimit⟩ := limit_le hv hunits hd'
      have hat := hsrc d hd'
      have hbound := hlt d hd'
      rw [hx]
      omega
    · intro d hd
      have hd' : d < shape.length := hx'rank ▸ hd
      have hsize := hx'size d hd'
      have hbound := hlt d hd'
      omega

end

theorem reduceWindow_right_iff (f : α → α → α) [Std.Commutative f] [Std.Associative f] (init : α)
    (hv : Verified op shape ds) (hunits : UnitWindows op shape ds) :
    Preserves f init op shape ds (.reduceWindow (newSlice ds op.windowDimensions)) ↔
      WindowsFit op.windowDimensions shape := by
  have hds : ds.length = shape.length := by
    rw [hv.slice_ok.length_eq, length_zipWith, length_dims hv, min_self]
  constructor
  · intro h
    obtain ⟨z, hz⟩ := exists_original f init hv (x := splat shape init) rfl
    obtain ⟨w, hw, -⟩ := h _ z rfl hz
    obtain ⟨x', hx', -⟩ := bind_eq_some_iff.mp hw
    obtain ⟨-, -, hok, -⟩ := read_slice hx'
    exact (newSlice_ok_iff hv hds hunits).mp fun d hd => hok d ((length_newSlice hv hds).symm ▸ hd)
  · intro hfit x z hx hz
    exact windows_of_slice hv hds hunits hfit hx hz

end

/-! ### Reductions of all elements of a dimension -/

def Neutral {α : Type} (f : α → α → α) (init : α) : Prop := ∀ a, f init a = a

/-- Each window of the dimension has one element, that of its position, and no padding that counts. -/
def Aligned (neutral : Prop) (dim : WindowDim) (n : Nat) : Prop :=
  (dim.window = 1 ∧ dim.padLow = 0) ∨ (neutral ∧ n = 1 ∧ 0 ≤ dim.padLow ∧ dim.padLow < dim.window)

def OthersAligned (neutral : Prop) (op : ReduceWindowOp) (shape : List Nat) (r : Nat) : Prop :=
  (∃ d < shape.length, d ≠ r ∧ coord shape d = 0) ∨
    ∀ d < shape.length, d ≠ r → Aligned neutral (windowDim op.dims d) (coord shape d)

/-- The checks of the `reduce`. -/
structure LastElement (op : ReduceWindowOp) (shape : List Nat) (ds : List SliceDim) (r : Nat) : Prop where
  lt : r < shape.length
  length_slice : ds.length = shape.length
  unit : ∀ d < shape.length, (windowDim op.dims d).Unit
  window_eq : (windowDim op.dims r).window = coord shape r
  padLow_eq : (windowDim op.dims r).padLow = coord shape r - 1
  slice_eq : ∀ d < shape.length, sliceDim ds d =
    if d = r then ⟨coord shape d - 1, coord shape d, 1⟩ else ⟨0, coord shape d, 1⟩

section

variable {α : Type} {f : α → α → α} [Std.Commutative f] [Std.Associative f] {init : α} {op : ReduceWindowOp}
  {shape : List Nat} {ds : List SliceDim} {x y z : Tensor α} {r d : Nat} {c : Nat → Nat} {p : List Nat}

def row (shape : List Nat) (r : Nat) (c : Nat → Nat) : Finset (List Nat) :=
  (indices shape).filter fun p => ∀ d < shape.length, d ∉ [r] → coord p d = c d

/-- The elements under the window that the slice takes. -/
def under (op : ReduceWindowOp) (shape : List Nat) (ds : List SliceDim) (c : Nat → Nat) : Finset (List Nat) :=
  underWindow op.dims shape ((List.range shape.length).map fun d => (sliceDim ds d).source (c d))

theorem source_eq (hr : LastElement op shape ds r) (hd : d < shape.length) (hc : d = r → c d = 0) :
    (sliceDim ds d).source (c d) = if d = r then coord shape r - 1 else c d := by
  rw [hr.slice_eq d hd]
  split
  · rename_i hdr
    rw [SliceDim.source, hc hdr, hdr]
    dsimp only
    omega
  · rw [SliceDim.source]
    dsimp only
    omega

theorem mem_under (hv : Verified op shape ds) (hr : LastElement op shape ds r) (hc : c r = 0) :
    p ∈ under op shape ds c ↔ p ∈ indices shape ∧ ∀ d < shape.length, d ≠ r →
      (c d : Int) ≤ coord p d + (windowDim op.dims d).padLow ∧
        coord p d + (windowDim op.dims d).padLow < c d + (windowDim op.dims d).window := by
  rw [under, mem_underWindow (length_dims hv) (by simp) hr.unit]
  refine and_congr_right fun hp => forall₂_congr fun d hd => ?_
  have hsrc : coord ((range shape.length).map fun d => (sliceDim ds d).source (c d)) d =
      if d = r then coord shape r - 1 else c d := by
    rw [coord_map_range _ hd, source_eq hr hd fun hdr => hdr ▸ hc]
  rw [hsrc]
  split
  · rename_i hdr
    have hlt := coord_lt hp hd
    rw [hdr] at hlt ⊢
    rw [hr.window_eq, hr.padLow_eq]
    exact ⟨fun _ hne => absurd rfl hne, fun _ => by omega⟩
  · rename_i hdr
    exact ⟨fun h _ => h, fun h => h hdr⟩

theorem mem_row : p ∈ row shape r c ↔ p ∈ indices shape ∧ ∀ d < shape.length, d ≠ r → coord p d = c d := by
  rw [row, Finset.mem_filter]
  refine and_congr_right fun _ => forall₂_congr fun d _ => ?_
  rw [mem_singleton]

theorem sizes_eq (hr : LastElement op shape ds r) :
    ds.map SliceDim.size = shape.mapIdx fun i n => if 0 + i ∈ [r] then 1 else n := by
  refine ext_getElem (by simp [hr.length_slice]) fun d hd hd' => ?_
  have hd'' : d < shape.length := by rwa [length_mapIdx] at hd'
  rw [getElem_map, getElem_mapIdx, ← sliceDim_eq_getElem, hr.slice_eq d hd'', zero_add, ← coord_eq_getElem]
  by_cases hdr : d = r
  · rw [if_pos hdr, if_pos (mem_singleton.mpr hdr), hdr, SliceDim.size, Int.ediv_one]
    dsimp only
    omega
  · rw [if_neg hdr, if_neg fun h => hdr (mem_singleton.mp h), SliceDim.size, Int.ediv_one]
    dsimp only
    omega

theorem pos_of_last (hv : Verified op shape ds) (hr : LastElement op shape ds r) : 0 < coord shape r :=
  hr.window_eq ▸ window_pos hv hr.lt

theorem within_of_slice (hr : LastElement op shape ds r) (hpos : 0 < coord shape r)
    (hz : z.shape = ds.map SliceDim.size) (hc : Within z.shape c) :
    c r = 0 ∧ ∀ d < shape.length, c d < coord shape d := by
  rw [hz, sizes_eq hr] at hc
  have hlt : ∀ d < shape.length, c d < if d = r then 1 else coord shape d := by
    intro d hd
    have h := hc d (by rwa [length_mapIdx])
    rw [coord_eq_getElem (by rwa [length_mapIdx]), getElem_mapIdx, zero_add, ← coord_eq_getElem] at h
    simp only [mem_singleton] at h
    exact h
  have hcr := hlt r hr.lt
  rw [if_pos rfl] at hcr
  refine ⟨Nat.lt_one_iff.mp hcr, fun d hd => ?_⟩
  have h := hlt d hd
  split at h
  · rename_i hdr
    rw [hdr] at h ⊢
    omega
  · exact h

theorem read_original (hx : x.shape = shape) (hz : original f init op ds x = some z) (hc : Within z.shape c)
    (hpadding : Neutral f init ∨ ∀ w ∈ indices (op.dims.map WindowDim.window),
      windowSource op.dims shape ((range shape.length).map fun d => (sliceDim ds d).source (c d)) w ≠ none) :
    z.read c = (under op shape ds c).fold f init x.get := by
  obtain ⟨y, hy, hz⟩ := original_eq_some hz
  obtain ⟨-, -, -, hread⟩ := read_slice hz
  rw [hread c hc, read_underWindow hy (by rwa [hx]), hx]
  rfl

theorem eval_reduce (f : α → α → α) [Std.Commutative f] [Std.Associative f] (init : α)
    (hr : LastElement op shape ds r) (hx : x.shape = shape) :
    ∃ w, (NewOp.reduce r).eval f init op ds x = some w ∧ w.shape = ds.map SliceDim.size ∧
      ∀ c, Within w.shape c → w.read c = (row shape r c).fold f init x.get := by
  have hsizes := sizes_eq hr
  obtain ⟨t, w, ht, hw⟩ := exists_reduce f init (nodup_singleton r) (x := x)
    (forall_mem_singleton.mpr (hx.symm ▸ hr.lt))
  refine ⟨w, ?_, ?_, fun c hc => ?_⟩
  · rw [NewOp.eval, ht, bind_some, hsizes, ← hx, hw]
  · obtain ⟨-, hw⟩ := ite_none_right_eq_some.mp hw
    cases hw
    rw [hsizes, hx]
  · rw [read_reduce ht hw hc, hx]
    rfl

theorem shape_original (hz : original f init op ds x = some z) : z.shape = ds.map SliceDim.size := by
  obtain ⟨y, -, hz⟩ := original_eq_some hz
  exact (read_slice hz).2.1

theorem under_eq_row (hv : Verified op shape ds) (hr : LastElement op shape ds r) {neutral : Prop}
    (haligned : ∀ d < shape.length, d ≠ r → Aligned neutral (windowDim op.dims d) (coord shape d)) (hcr : c r = 0)
    (hc : ∀ d < shape.length, c d < coord shape d) : under op shape ds c = row shape r c := by
  ext p
  rw [mem_under hv hr hcr, mem_row]
  refine and_congr_right fun hp => forall₃_congr fun d hd hdr => ?_
  have hlt := coord_lt hp hd
  have hcd := hc d hd
  rcases haligned d hd hdr with ⟨hwindow, hlow⟩ | ⟨-, hone, hlow, hhigh⟩
  · rw [hwindow, hlow]
    omega
  · omega

theorem reduce_of_aligned (hv : Verified op shape ds) (hr : LastElement op shape ds r)
    (h : OthersAligned (Neutral f init) op shape r) : Preserves f init op shape ds (.reduce r) := by
  intro x z hx hz
  obtain ⟨w, hw, hwshape, hwread⟩ := eval_reduce f init hr hx
  have hzshape := shape_original hz
  refine ⟨w, hw, same_of_read (hwshape.trans hzshape.symm) fun c hc => ?_⟩
  have hcz : Within z.shape c := by rwa [hzshape, ← hwshape]
  obtain ⟨hcr, hclt⟩ := within_of_slice hr (pos_of_last hv hr) hzshape hcz
  have haligned : ∀ d < shape.length, d ≠ r → Aligned (Neutral f init) (windowDim op.dims d) (coord shape d) := by
    rcases h with ⟨d, hd, -, hzero⟩ | h
    · exact absurd (hclt d hd) (by rw [hzero]; exact Nat.not_lt_zero _)
    · exact h
  rw [hwread c hc, ← under_eq_row hv hr haligned hcr hclt, read_original hx hz hcz]
  by_cases hneutral : Neutral f init
  · exact .inl hneutral
  · -- all windows but that of the reduction dimension have one element
    refine .inr fun k hk => ?_
    have hklt : ∀ d < shape.length, coord k d < (windowDim op.dims d).window := by
      intro d hd
      have hlt := coord_lt hk (d := d) (by rwa [length_map, length_dims hv])
      rwa [coord_map _ _ ((length_dims hv).symm ▸ hd), ← windowDim_eq_getElem] at hlt
    have hklength : k.length = shape.length := by
      rw [length_of_mem_indices hk, length_map, length_dims hv]
    refine ne_none_iff_exists'.mpr ⟨(range shape.length).map fun d => if d = r then coord k d else c d,
      (windowSource_eq_some_iff (length_dims hv) (by simp) hklength).mpr ⟨by simp, fun d hd => ?_⟩⟩
    have hkd := hklt d hd
    rw [WindowDim.source_of_unit (hr.unit d hd), coord_map_range _ hd,
      coord_map_range _ hd, source_eq hr hd fun hdr => hdr ▸ hcr]
    split
    · rename_i hdr
      have hpos := pos_of_last hv hr
      rw [hdr, hr.window_eq] at hkd
      rw [hdr, hr.padLow_eq]
      exact ⟨hkd, by omega⟩
    · rename_i hdr
      rcases haligned d hd hdr with ⟨hwindow, hlow⟩ | ⟨hinit, -⟩
      · rw [hlow]
        exact ⟨hclt d hd, by omega⟩
      · exact absurd hinit hneutral

section

variable [Nontrivial α] (hv : Verified op shape ds) (hr : LastElement op shape ds r) (hneutral : Neutral f init)

include hv hr hneutral

/-- If the window and the row reduce to the same, whatever the elements are, they have the same elements. -/
theorem under_eq_row_of_preserves (h : Preserves f init op shape ds (.reduce r)) (hcr : c r = 0)
    (hc : ∀ d < shape.length, c d < coord shape d) : under op shape ds c = row shape r c := by
  obtain ⟨a, ha⟩ := exists_ne init
  ext q
  let x : Tensor α := ⟨shape, fun p => if p = q then a else init⟩
  obtain ⟨z, hz⟩ := exists_original f init hv (x := x) rfl
  obtain ⟨w, hw, hwshape, hwread⟩ := eval_reduce f init hr (x := x) rfl
  obtain ⟨w', hw', hsame⟩ := h x z rfl hz
  cases hw.symm.trans hw'
  have hwithin : Within w.shape c := by
    intro d hd
    rw [hwshape, sizes_eq hr] at hd ⊢
    rw [length_mapIdx] at hd
    rw [coord_eq_getElem (by rwa [length_mapIdx]), getElem_mapIdx, zero_add, ← coord_eq_getElem]
    split
    · rename_i hdr
      rw [mem_singleton.mp hdr, hcr]
      exact one_pos
    · exact hc d hd
  have heq := hsame.read_eq hwithin
  rw [hwread c hwithin, read_original rfl hz (hsame.shape_eq ▸ hwithin) (.inl hneutral)] at heq
  change (row shape r c).fold f init (fun p => if p = q then a else init) =
    (under op shape ds c).fold f init (fun p => if p = q then a else init) at heq
  rw [fold_mark f hneutral, fold_mark f hneutral] at heq
  by_cases hrow : q ∈ row shape r c
  · rw [if_pos hrow] at heq
    refine iff_of_true ?_ hrow
    by_contra hunder
    rw [if_neg hunder] at heq
    exact ha heq
  · rw [if_neg hrow] at heq
    refine iff_of_false (fun hunder => ?_) hrow
    rw [if_pos hunder] at heq
    exact ha heq.symm

theorem aligned_of_preserves (h : Preserves f init op shape ds (.reduce r)) :
    OthersAligned (Neutral f init) op shape r := by
  refine or_iff_not_imp_left.mpr fun hnonempty d hd hdr => ?_
  have hpos : ∀ e < shape.length, 0 < coord shape e := by
    intro e he
    by_cases her : e = r
    · rw [her]
      exact pos_of_last hv hr
    · exact pos_of_ne_zero fun hzero => hnonempty ⟨e, he, her, hzero⟩
  -- the window of position `k` has the element at `j` if and only if that is `k`
  have hzeros : ∀ e < shape.length, e ≠ r → (0 : Int) ≤ (windowDim op.dims e).padLow ∧
      (windowDim op.dims e).padLow < (windowDim op.dims e).window := by
    have hmem : (range shape.length).map (fun _ => 0) ∈ row shape r fun _ => 0 := by
      refine mem_row.mpr ⟨mem_indices_iff.mpr ⟨by simp, fun e he => ?_⟩, fun e he _ => ?_⟩
      · rw [coord_map _ _ (by rwa [length_range])]
        exact hpos e he
      · rw [coord_map _ _ (by rwa [length_range])]
    rw [← under_eq_row_of_preserves hv hr hneutral h rfl hpos, mem_under hv hr rfl] at hmem
    intro e he her
    have hat := hmem.2 e he her
    rw [coord_map _ _ (by rwa [length_range]), Nat.cast_zero, zero_add, zero_add] at hat
    exact hat
  have hiff : ∀ k < coord shape d, ∀ j < coord shape d, ((k : Int) ≤ j + (windowDim op.dims d).padLow ∧
      j + (windowDim op.dims d).padLow < k + (windowDim op.dims d).window) ↔ j = k := by
    intro k hk j hj
    have hclt : ∀ e < shape.length, update (fun _ => 0) d k e < coord shape e := by
      intro e he
      by_cases hed : e = d
      · rw [hed, update_self]
        exact hk
      · rw [update_of_ne hed]
        exact hpos e he
    have heq := under_eq_row_of_preserves hv hr hneutral h
      (update_of_ne (Ne.symm hdr) k fun _ => 0) hclt
    have hp : (range shape.length).map (update (fun _ => 0) d j) ∈ indices shape := by
      refine mem_indices_iff.mpr ⟨by simp, fun e he => ?_⟩
      rw [coord_map_range _ he]
      by_cases hed : e = d
      · rw [hed, update_self]
        exact hj
      · rw [update_of_ne hed]
        exact hpos e he
    have hcoord : ∀ e < shape.length, coord ((range shape.length).map (update (fun _ => 0) d j)) e =
        update (fun _ => 0) d j e := fun e he => coord_map_range _ he
    have hmem := Finset.ext_iff.mp heq ((range shape.length).map (update (fun _ => 0) d j))
    rw [mem_under hv hr (update_of_ne (Ne.symm hdr) k fun _ => 0), mem_row] at hmem
    have hmem := (and_congr_right_iff.mp hmem) hp
    constructor
    · intro hin
      have hat := hmem.mp (fun e he her => ?_) d hd hdr
      · rwa [hcoord d hd, update_self, update_self] at hat
      · rw [hcoord e he]
        by_cases hed : e = d
        · rw [hed, update_self, update_self]
          exact hin
        · rw [update_of_ne hed, update_of_ne hed, Nat.cast_zero, zero_add, zero_add]
          exact hzeros e he her
    · rintro rfl
      have hat := hmem.mpr (fun e he _ => hcoord e he) d hd hdr
      rwa [hcoord d hd, update_self] at hat
  obtain ⟨hlow, hhigh⟩ := hzeros d hd hdr
  by_cases hone : coord shape d = 1
  · exact .inr ⟨hneutral, hone, hlow, hhigh⟩
  · have hd := hpos d hd
    have hright := hiff 0 hd 1 (by omega)
    have hleft := hiff 1 (by omega) 0 hd
    exact .inl (by omega)

/-- Exactly when the `reduce` is right for a neutral init value. -/
theorem reduce_right_iff :
    Preserves f init op shape ds (.reduce r) ↔ OthersAligned (Neutral f init) op shape r :=
  ⟨aligned_of_preserves hv hr hneutral, reduce_of_aligned hv hr⟩

end

theorem SliceReduceWindow_eq_some {new : NewOp} (hv : Verified op shape ds)
    (h : SliceReduceWindow op shape ds = some new) :
    (new = .reduceWindow (newSlice ds op.windowDimensions) ∧ UnitWindows op shape ds) ∨
      ∃ r, new = .reduce r ∧ LastElement op shape ds r := by
  have hds : ds.length = shape.length := by
    rw [hv.slice_ok.length_eq, length_zipWith, length_dims hv, min_self]
  rw [SliceReduceWindow] at h
  split at h
  · rename_i hchecks
    obtain ⟨hstrides, hwindow, hbase, hzero, hslice⟩ := hchecks
    refine .inl ⟨(some.inj h).symm, fun d hd => unit_of_checks hv hstrides hwindow hbase hd,
      fun d hd => padding_of_zero hv hzero hd, fun d hd => ?_⟩
    exact of_decide_eq_true (getD_of_all hslice (hds.symm ▸ hd) ⟨0, 0, 1⟩)
  · split at h
    · cases h
    · rename_i paddingVals hpadding
      split_ifs at h with hchecks
      obtain ⟨hstrides, hwindow, hbase⟩ := hchecks
      obtain ⟨found, hfound, hbody⟩ := bind_eq_some_iff.mp h
      obtain ⟨r, rfl, hlastCheck⟩ := bind_eq_some_iff.mp hbody
      split_ifs at hlastCheck with hlow hlast
      cases hlastCheck
      rcases findReductionDim_eq_some hv.length_windowDimensions hfound with ⟨hnone, -⟩ | ⟨-, r', hr', hfoundAt, heq⟩
      · cases hnone
      · rw [zero_add] at hfoundAt
        cases hfoundAt
        refine .inr ⟨r, rfl, hr', hds, fun d hd => unit_of_checks hv hstrides hwindow hbase hd, ?_, ?_, ?_⟩
        · rw [window_eq hv hr', heq]
        · rw [windowDim_dims op (hv.length_windowDimensions ▸ hr'), hpadding, ← heq]
          exact not_not.mp hlow
        · intro d hd
          rw [takesLast_eq hlast (hds.symm ▸ hd)]
          by_cases hdr : d = r
          · rw [if_pos hdr, if_pos hdr, hdr, heq]
          · rw [if_neg hdr, if_neg hdr]

end

/-! ### Exactly when the slice is replaced by what it is -/

section

variable {α : Type} {op : ReduceWindowOp} {shape : List Nat} {ds : List SliceDim} {new : NewOp}

/-- When the `reduce_window` of a slice, or the `reduce`, is the slice. -/
def NewOp.Right (f : α → α → α) (init : α) (op : ReduceWindowOp) (shape : List Nat) : NewOp → Prop
  | reduceWindow _ => WindowsFit op.windowDimensions shape
  | reduce reductionDim => OthersAligned (Neutral f init) op shape reductionDim

/-- The condition is enough for any init value, and needed unless the `reduce` is from one that is not neutral. -/
theorem sliceReduceWindow_right_iff [Nontrivial α] (f : α → α → α) [Std.Commutative f] [Std.Associative f] (init : α)
    (hv : Verified op shape ds) (h : SliceReduceWindow op shape ds = some new) :
    (new.Right f init op shape → Preserves f init op shape ds new) ∧ ((Neutral f init ∨ ∃ s, new = .reduceWindow s) →
        (Preserves f init op shape ds new ↔ new.Right f init op shape)) := by
  rcases SliceReduceWindow_eq_some hv h with ⟨rfl, hunits⟩ | ⟨r, rfl, hr⟩
  · have hiff := reduceWindow_right_iff f init hv hunits
    exact ⟨hiff.mpr, fun _ => hiff⟩
  · refine ⟨reduce_of_aligned hv hr, fun hneutral => ?_⟩
    rcases hneutral with hneutral | ⟨s, hs⟩
    · exact reduce_right_iff hv hr hneutral
    · cases hs

end

/-! ### Two rows of three elements -/

/-- The sums of the elements up to each row, of `columns` columns. -/
def rowSums (columns : Nat) (low : Int) : ReduceWindowOp :=
  ⟨[2, columns], none, none, none, some [(1, 0), (low, 0)]⟩

theorem verified_rowSums {columns : Nat} {low : Int} (hcolumns : 0 < columns) (hlow : low + 1 = columns) :
    Verified (rowSums columns low) [2, 3] [⟨1, 2, 1⟩, ⟨0, 3, 1⟩] := by
  have hdims : (rowSums columns low).dims = [⟨2, 1, 1, 1, 1, 0⟩, ⟨columns, 1, 1, 1, low, 0⟩] := rfl
  have hwindows : ∀ d : WindowDim, d.Unit → 0 < d.window → d.padLow = d.window - 1 → d.padHigh = 0 →
      ∀ n, d.numWindows n = n := by
    intro d hd hpos hlow hhigh n
    rw [WindowDim.numWindows_of_unit hd hpos, hlow, hhigh]
    omega
  refine ⟨rfl, fun l hl => ?_, fun l hl => ?_, fun l hl => ?_, fun l hl => ?_, fun d hd => ?_, ?_⟩
  · cases hl
  · cases hl
  · cases hl
  · cases hl
    rfl
  · rw [hdims] at hd
    rcases mem_cons.mp hd with rfl | hd
    · exact ⟨two_pos, one_pos, one_pos, one_pos⟩
    · obtain rfl := mem_singleton.mp hd
      exact ⟨hcolumns, one_pos, one_pos, one_pos⟩
  · rw [hdims, zipWith_cons_cons, zipWith_cons_cons, zipWith_nil_left, hwindows _ ⟨rfl, rfl, rfl⟩ two_pos rfl rfl,
      hwindows _ ⟨rfl, rfl, rfl⟩ hcolumns (eq_sub_of_add_eq hlow) rfl]
    exact .cons (by decide) (.cons (by decide) .nil)

/-- The last row of the sums of the rows above, and the last two of three elements in windows of one. -/
theorem sliceReduceWindow_right_iff_three :
    Preserves (fun a b : Int => a + b) 0 (rowSums 1 0) [2, 3] [⟨1, 2, 1⟩, ⟨0, 3, 1⟩] (.reduce 0) ∧
      Preserves (fun a b : Int => a + b) 0 ⟨[1], none, none, none, none⟩ [3] [⟨1, 3, 1⟩]
        (.reduceWindow [⟨1, 3, 1⟩]) := by
  constructor
  · refine (sliceReduceWindow_right_iff (fun a b : Int => a + b) 0 (verified_rowSums Nat.one_pos rfl) rfl).1 (.inr fun d hd hdr => .inl ?_)
    have hd : d < 2 := hd
    obtain rfl : d = 1 := by omega
    exact ⟨rfl, rfl⟩
  · have hnone : ∀ {β : Type} (l : List β), l ∈ (none : Option (List β)) → l.length = 1 := by
      intro β l hl
      cases hl
    have hv : Verified ⟨[1], none, none, none, none⟩ [3] [⟨1, 3, 1⟩] :=
      ⟨rfl, hnone, hnone, hnone, hnone, by decide, .cons (by decide) .nil⟩
    refine (sliceReduceWindow_right_iff (fun a b : Int => a + b) 0 hv rfl).1 fun d hd => ?_
    obtain rfl := Nat.lt_one_iff.mp hd
    decide

/-- In windows of two columns, the last row has the sums of two columns each. -/
theorem not_preserves_two_columns : Verified (rowSums 2 1) [2, 3] [⟨1, 2, 1⟩, ⟨0, 3, 1⟩] ∧
    SliceReduceWindow (rowSums 2 1) [2, 3] [⟨1, 2, 1⟩, ⟨0, 3, 1⟩] = some (.reduce 0) ∧
      ¬Preserves (fun a b : Int => a + b) 0 (rowSums 2 1) [2, 3] [⟨1, 2, 1⟩, ⟨0, 3, 1⟩] (.reduce 0) := by
  have hv : Verified (rowSums 2 1) [2, 3] [⟨1, 2, 1⟩, ⟨0, 3, 1⟩] := verified_rowSums Nat.two_pos rfl
  refine ⟨hv, rfl, fun h => ?_⟩
  rcases SliceReduceWindow_eq_some hv (rfl : _ = some (NewOp.reduce 0)) with ⟨hnew, -⟩ | ⟨r, hnew, hr⟩
  · cases hnew
  · obtain rfl := NewOp.reduce.inj hnew
    rcases (reduce_right_iff hv hr zero_add).mp h with ⟨d, hd, -, hzero⟩ | haligned
    · have hall : ∀ d < 2, coord [2, 3] d ≠ 0 := by decide
      exact hall d hd hzero
    · rcases haligned 1 (by decide) (by decide) with ⟨hwindow, -⟩ | ⟨-, hone, -⟩
      · exact absurd hwindow (by decide)
      · exact absurd hone (by decide)

end EnzymeJax.SlicesOfWindows
