import EnzymeJax.HLOOpt.DynamicSlices
import EnzymeJax.HLOOpt.SlicesOfUpdates
import EnzymeJax.Library.Tiles

/-!
# Updates that are rebuilt

A `dynamic_update_slice` with constant starts becomes a pad of an update, or a concatenation of slices of the operand
and the update. Peeling one dimension at a time updates one of two slices, but neither of them where the update
is at an end of the only dimension that it differs in.
-/

namespace EnzymeJax.RebuiltUpdates

open Tensor OverlapTests SlicesOfUpdates Option Function
open List hiding allSome

/-! ### The patterns -/

/-- Arithmetic of 64-bit integers, which wraps around. -/
def int64 (n : Int) : Int := n.bmod (2 ^ 64)

/-- What is padded instead. -/
inductive ValueToPad
  | update
  | newDus (starts : List Int)

inductive Padded
  | failure
  /-- The type of the first start index is taken, where there is none. -/
  | outside
  | replaced (new : ValueToPad)

/-- A start index in the operand of the pad, if the update is inside of it. -/
def newDusStartIndex (start : StartIndex) (updateSize lowPad : Int) (originalSize : Nat) : Option Int := do
  let startVal ← start.getSExtValue
  let endVal := int64 (startVal + updateSize)
  if startVal < lowPad ∨ lowPad + originalSize < endVal then none else some (startVal - lowPad)

/-- The start indices have one type. -/
def DUSPad (pads : List PadDim) (original update : List Nat) (indexType : IntType) (starts : List StartIndex)
    (singleUser : Bool) : Padded :=
  if pads.any fun pad => pad.interior ≠ 0 then .failure
  else if (pads.any fun pad => pad.low < 0) || (pads.any fun pad => pad.high < 0) then .failure
  else if starts.isEmpty then .outside
  else match allSome ((List.range starts.length).map fun d =>
      newDusStartIndex (startAt starts d) (coord update d) (padDim pads d).low (coord original d)) with
    | none => .failure
    | some newDusStartIndexValues =>
      if original = update then .replaced .update
      else if ¬singleUser then .failure
      else .replaced (.newDus (newDusStartIndexValues.map (DynamicSlices.makeAttr indexType)))

/-- The update spans dimension `d`. -/
def Spans (starts : List Int) (update shape : List Nat) (d : Nat) : Prop :=
  starts.getD d 0 = 0 ∧ coord update d = coord shape d

instance (starts : List Int) (update shape : List Nat) (d : Nat) : Decidable (Spans starts update shape d) :=
  inferInstanceAs (Decidable (_ ∧ _))

/-- The dimension, and the operands of the concatenation along it. -/
def DynamicUpdateToConcat (starts : List StartIndex) (update shape : List Nat) : Option (Nat × List Piece) := do
  let starts ← allSome (starts.map StartIndex.getSExtValue)
  if (List.range shape.length).any fun d => starts.getD d 0 < 0 then none
  else if (List.range shape.length).any fun d => coord shape d < int64 (starts.getD d 0 + coord update d) then none
  else match (List.range shape.length).filter fun d => ¬Spans starts update shape d with
    | [dim] =>
      let startv := starts.getD dim 0
      let updateEnd := int64 (startv + coord update dim)
      some (dim, (if startv ≠ 0 then [Piece.operand (sliceAlong dim 0 startv shape)] else []) ++ [Piece.update] ++
        if updateEnd ≠ coord shape dim then [Piece.operand (sliceAlong dim updateEnd (coord shape dim) shape)] else [])
    | _ => none

/-- An operand of the new concatenation: a slice of the target, or an update of it. -/
inductive Half
  | slice (dims : List SliceDim)
  | newDus (dims : List SliceDim) (newDusIndices : List StartIndex)

inductive Replacement
  | update
  | concat (differingDim : Nat) (slicePre slicePost : Half)

/-- One dimension of the search for `differingDim` and `singleDifferingDim`. -/
def differingStep (starts : List Int) (update shape : List Nat) (found : Option Nat × Bool) (d : Nat) :
    Option Nat × Bool :=
  if Spans starts update shape d then found else (some d, found.1.isNone)

def findDifferingDim (starts : List Int) (update shape : List Nat) : Option Nat × Bool :=
  (List.range shape.length).foldl (differingStep starts update shape) (none, false)

def DUSToConcat (starts : List StartIndex) (update shape : List Nat) (indexType : IntType) : Option Replacement :=
  if shape.length = 0 then some .update
  else do
    let dusStartIndices ← allSome (starts.map StartIndex.getSExtValue)
    match findDifferingDim dusStartIndices update shape with
    | (none, _) => if shape = update then some .update else none
    | (some differingDim, singleDifferingDim) =>
      let start := dusStartIndices.getD differingDim 0
      let dusFromBeginning := start = 0
      let dusToEnd := int64 (start + coord update differingDim) = coord shape differingDim
      let newDusIndices := starts.set differingDim (.constant indexType 0)
      let pre (sliceAt : Int) := sliceAlong differingDim 0 sliceAt shape
      let post (sliceAt : Int) := sliceAlong differingDim sliceAt (coord shape differingDim) shape
      if ¬dusFromBeginning then
        some (.concat differingDim (.slice (pre start))
          (if ¬(singleDifferingDim ∧ dusToEnd) then .newDus (post start) newDusIndices else .slice (post start)))
      else
        let sliceAt := int64 (start + coord update differingDim)
        some (.concat differingDim (if ¬(singleDifferingDim ∧ dusFromBeginning) then .newDus (pre sliceAt) newDusIndices
            else .slice (pre sliceAt)) (.slice (post sliceAt)))

section

variable {α : Type} (u x : Tensor α)

def ValueToPad.eval (pads : List PadDim) (v : α) : ValueToPad → Option (Tensor α)
  | update => pad pads v u
  | newDus starts => (dynamicUpdateSlice starts u x).bind (pad pads v)

/-- The integers that constant start indices are. -/
def values (starts : List StartIndex) : Option (List Int) :=
  allSome (starts.map fun
    | .constant _ n => some n
    | .runtime => none)

def Half.eval : Half → Option (Tensor α)
  | slice dims => Tensor.slice dims x
  | newDus dims newDusIndices => do
    let ss ← values newDusIndices
    let t ← Tensor.slice dims x
    dynamicUpdateSlice ss u t

def Replacement.eval : Replacement → Option (Tensor α)
  | update => some u
  | concat differingDim slicePre slicePost => do
    let pre ← slicePre.eval u x
    let post ← slicePost.eval u x
    concatenate differingDim [pre, post]

end

/-! ### What they are to do -/

structure Verified (shape update : List Nat) (indexType : IntType) (starts : List StartIndex) : Prop where
  length_starts : starts.length = shape.length
  fits : List.Forall₂ (· ≤ ·) update shape
  types : ∀ type n, .constant type n ∈ starts → type = indexType ∧ type.wrap n = n
  width : indexType.width ≤ 64
  extents : ∀ n ∈ shape, n < 2 ^ 63

/-- Whatever the tensors are, the new op has the result of the update. -/
def Preserves (α : Type) (shape update : List Nat) (starts : List StartIndex)
    (new : Tensor α → Tensor α → Option (Tensor α)) : Prop :=
  ∀ (ss : List Int) (u x y : Tensor α), HaveValues starts ss → u.shape = update → x.shape = shape →
    dynamicUpdateSlice ss u x = some y → ∃ z, new u x = some z ∧ Same z y

/-- Whatever the tensors are, the new pad has the result of the update of the pad. -/
def PreservesPad (α : Type) (pads : List PadDim) (original update : List Nat) (starts : List StartIndex)
    (new : ValueToPad) : Prop :=
  ∀ (ss : List Int) (v : α) (u x y : Tensor α), HaveValues starts ss → u.shape = update → x.shape = original →
    (pad pads v x).bind (dynamicUpdateSlice ss u) = some y → ∃ z, new.eval u x pads v = some z ∧ Same z y

/-! ### Start indices -/

variable {n r : Int} {s : StartIndex}

theorem int64_of_lt (hlow : -2 ^ 63 ≤ n) (hhigh : n < 2 ^ 63) : int64 n = n := by
  rw [int64, Int.bmod_def]
  norm_num at hlow hhigh ⊢
  omega

theorem int64_of_le (hlow : 2 ^ 63 ≤ n) (hhigh : n < 2 ^ 64) : int64 n = n - 2 ^ 64 := by
  rw [int64, Int.bmod_def]
  norm_num at hlow hhigh ⊢
  omega

section

variable {α : Type} {shape update : List Nat} {indexType : IntType} {starts : List StartIndex} {ss : List Int} {d : Nat}

theorem getSExtValue_bounds (hs : ∀ type n, s = .constant type n → type.width ≤ 64)
    (hr : s.getSExtValue = some r) : -2 ^ 63 ≤ r ∧ r < 2 ^ 63 := by
  cases s with
  | runtime => cases hr
  | constant type n =>
    cases hr
    have hle := Int.le_bmod (x := n) (m := 2 ^ type.width) (by positivity)
    have hlt := Int.bmod_lt (x := n) (m := 2 ^ type.width) (by positivity)
    have hpow : (2 : Int) ^ type.width ≤ 2 ^ 64 := pow_le_pow_right₀ (by omega) (hs _ _ rfl)
    push_cast at hle hlt
    norm_num at hpow ⊢
    omega

section

variable (hv : Verified shape update indexType starts)

include hv

theorem readAt_bounds (hd : d < shape.length)
    (hr : (startAt starts d).getSExtValue = some r) : -2 ^ 63 ≤ r ∧ r < 2 ^ 63 := by
  refine getSExtValue_bounds (fun type n heq => ?_) hr
  have hd' : d < starts.length := hv.length_starts.symm ▸ hd
  have hmem : StartIndex.constant type n ∈ starts := by
    rw [← heq, startAt, getD_eq_getElem _ _ hd']
    exact getElem_mem hd'
  rw [(hv.types _ _ hmem).1]
  exact hv.width

theorem value_eq (hss : HaveValues starts ss)
    (hd : d < shape.length) (hr : (startAt starts d).getSExtValue = some r) (hpos : 0 ≤ r) : ss.getD d 0 = r :=
  eq_of_getSExtValue (hss.2 d (hv.length_starts.symm ▸ hd)) hr hpos

theorem coord_lt_extents (hd : d < shape.length) :
    coord shape d < 2 ^ 63 := by
  rw [coord_eq_getElem hd]
  exact hv.extents _ (getElem_mem hd)

end

theorem exists_haveValues (h : ∀ d < starts.length, ∃ r, (startAt starts d).getSExtValue = some r)
    (hv : Verified shape update indexType starts) : ∃ ss, HaveValues starts ss := by
  refine ⟨starts.map fun
    | .constant _ n => n
    | .runtime => 0, length_map _, fun d hd => ?_⟩
  have hmem : startAt starts d ∈ starts := by
    rw [startAt, getD_eq_getElem _ _ hd]
    exact getElem_mem hd
  obtain ⟨r, hr⟩ := h d hd
  rw [getD_eq_getElem _ _ (by rwa [length_map]), getElem_map]
  have hget : starts[d] = startAt starts d := by rw [startAt, getD_eq_getElem _ _ hd]
  rw [hget]
  cases hstart : startAt starts d with
  | runtime => rw [hstart] at hr; cases hr
  | constant type n => exact ⟨rfl, (hv.types type n (hstart ▸ hmem)).2⟩

end

/-! ### Updates of pads -/

section

variable {α : Type} {update shape : List Nat} {start start' : Nat → Int} {u x : Tensor α} {c : Nat → Nat}

theorem placed_empty (hempty : 0 ∈ u.shape) (hu : u.shape.length = x.shape.length) : placed start u x c = x.read c := by
  rw [placed, if_neg]
  intro hin
  obtain ⟨d, hd, hzero⟩ := getElem_of_mem hempty
  have hat := hin d (hu ▸ hd)
  rw [coord_eq_getElem hd, hzero] at hat
  omega

theorem placed_of_read {a : α} {xp : Tensor α} (hshape : xp.shape = shape) (hread : ∀ c, xp.read c = a) :
    placed start u xp c = placed start u (splat shape a) c := by
  rw [placed, placed, hread, hshape]
  rfl

theorem read_pad_splat {a : α} {pads : List PadDim} {xp : Tensor α} (h : pad pads a (splat shape a) = some xp)
    (c : Nat → Nat) : xp.read c = a := by
  obtain ⟨-, h⟩ := ite_none_right_eq_some.mp h
  cases h
  change (Option.map (fun _ => a) _).getD a = a
  cases allSome _ <;> rfl

theorem inside_toNat (hempty : 0 ∉ update) (hupd : update.length = shape.length)
    (hpos : ∀ d < shape.length, 0 ≤ start d) : Inside shape.length update start fun d => (start d).toNat := by
  intro d hd
  have hd' : d < update.length := hupd ▸ hd
  have hne : coord update d ≠ 0 := fun h => hempty (by
    rw [← h, coord_eq_getElem hd']
    exact getElem_mem hd')
  have hat := hpos d hd
  beta_reduce
  omega

end

section

variable {α : Type} {pads : List PadDim} {original update : List Nat} {v : α} {u x xp w z : Tensor α}
  {start : Nat → Int}

theorem read_pad_placed (hxp : pad pads v x = some xp) (hedge : ∀ e ∈ pads, e.interior = 0)
    (hz : pad pads v w = some z) (hw : w.shape = x.shape) (hu : u.shape.length = x.shape.length)
    (hstart : ∀ d < x.shape.length, 0 ≤ start d ∧ start d + coord u.shape d ≤ coord x.shape d)
    (hread : ∀ c, Within x.shape c → w.read c = placed start u x c) {c : Nat → Nat} :
    z.read c = placed (fun d => (padDim pads d).low + start d) u xp c := by
  obtain ⟨hpads, hrank, -⟩ := shape_pad hxp
  have hsrc : ∀ d < pads.length, ∀ (n q : Nat), (padDim pads d).source n q =
      if 0 ≤ (q : Int) - (padDim pads d).low ∧ (q : Int) - (padDim pads d).low < n then
        some ((q : Int) - (padDim pads d).low).toNat else none := fun d hd n q =>
    PadDim.source_of_interior (by rw [padDim_eq_getElem hd]; exact hedge _ (getElem_mem hd))
  have hlen : xp.shape.length = x.shape.length := hrank.trans hpads
  by_cases hinside : ∀ d < pads.length,
      0 ≤ (c d : Int) - (padDim pads d).low ∧ (c d : Int) - (padDim pads d).low < coord x.shape d
  · let p : Nat → Nat := fun d => ((c d : Int) - (padDim pads d).low).toNat
    have hp : Within x.shape p := fun d hd => by
      have hat := hinside d (hpads ▸ hd)
      simp only [p]
      omega
    have hzread : z.read c = w.read p := (read_pad hz c).1 p fun d hd => by
      rw [hw, hsrc d hd, if_pos (hinside d hd)]
    have hxread : xp.read c = x.read p := (read_pad hxp c).1 p fun d hd => by
      rw [hsrc d hd, if_pos (hinside d hd)]
    rw [hzread, hread p hp, placed, placed, hlen, hxread]
    refine if_congr (forall₂_congr fun d hd => ?_) (read_congr u fun d hd => ?_) rfl
    · have hat := hinside d (hpads ▸ hd)
      simp only [p]
      omega
    · have hat := hinside d (hpads ▸ hu ▸ hd)
      simp only [p]
      omega
  · push Not at hinside
    obtain ⟨d, hd, hout⟩ := hinside
    have hnone : ∀ n : Nat, n = coord x.shape d → (padDim pads d).source n (c d) = none := fun n hn => by
      rw [hsrc d hd, if_neg]
      omega
    rw [(read_pad hz c).2 ⟨d, hd, hnone _ (by rw [hw])⟩, placed, if_neg, (read_pad hxp c).2 ⟨d, hd, hnone _ rfl⟩]
    intro hin
    have hat := hin d (by rw [hlen]; exact hpads ▸ hd)
    have hfit := hstart d (hpads ▸ hd)
    beta_reduce at hat
    omega

structure PadFired (pads : List PadDim) (original update : List Nat) (indexType : IntType) (starts : List StartIndex)
    (new : ValueToPad) : Prop where
  rank : 0 < starts.length
  edge : ∀ e ∈ pads, e.interior = 0 ∧ 0 ≤ e.low ∧ 0 ≤ e.high
  reads : ReadAs starts starts.length (readAt starts)
  low_le : ∀ d < starts.length, (padDim pads d).low ≤ readAt starts d
  end_le : ∀ d < starts.length, int64 (readAt starts d + coord update d) ≤ (padDim pads d).low + coord original d
  new_eq : original = update ∧ new = .update ∨ new = .newDus ((List.range starts.length).map fun d =>
    DynamicSlices.makeAttr indexType (readAt starts d - (padDim pads d).low))

variable {indexType : IntType} {starts : List StartIndex} {singleUser : Bool} {new : ValueToPad} {d : Nat}
    {ss : List Int}

theorem newDusStartIndex_eq_some {updateSize lowPad : Int} {originalSize : Nat}
    (h : newDusStartIndex s updateSize lowPad originalSize = some r) : ∃ startVal, s.getSExtValue = some startVal ∧
      lowPad ≤ startVal ∧ int64 (startVal + updateSize) ≤ lowPad + originalSize ∧ r = startVal - lowPad := by
  obtain ⟨startVal, hstart, h⟩ := bind_eq_some_iff.mp h
  dsimp only at h
  split_ifs at h with hbounds
  push Not at hbounds
  exact ⟨startVal, hstart, hbounds.1, hbounds.2, (some.inj h).symm⟩

theorem padFired_of_replaced (h : DUSPad pads original update indexType starts singleUser = .replaced new) :
    PadFired pads original update indexType starts new := by
  rw [DUSPad] at h
  split at h
  · cases h
  rename_i hinterior
  split at h
  · cases h
  rename_i hedge
  split at h
  · cases h
  rename_i hrank
  simp only [List.any_eq_true, Bool.or_eq_true, not_exists, not_and, not_or, decide_eq_true_eq, not_not,
    not_lt] at hinterior hedge
  split at h
  · cases h
  · rename_i values hvals
    have hall := allSome_map_iff.mp hvals
    have hlen : values.length = starts.length := hall.length_eq.symm.trans length_range
    have hat : ∀ d (hd : d < starts.length), ∃ startVal, (startAt starts d).getSExtValue = some startVal ∧
        (padDim pads d).low ≤ startVal ∧
        int64 (startVal + coord update d) ≤ (padDim pads d).low + coord original d ∧
        values.getD d 0 = startVal - (padDim pads d).low := by
      intro d hd
      have hget := (forall₂_iff_get.mp hall).2 d (by rwa [length_range]) (hlen.symm ▸ hd)
      rw [get_eq_getElem, getElem_range, get_eq_getElem] at hget
      obtain ⟨startVal, hread, hlow, hend, heq⟩ := newDusStartIndex_eq_some hget
      exact ⟨startVal, hread, hlow, hend, by rw [getD_eq_getElem _ _ (hlen.symm ▸ hd), heq]⟩
    have hread : ∀ d < starts.length, ∀ r, (startAt starts d).getSExtValue = some r → readAt starts d = r :=
      fun d _ r hr => by rw [readAt, hr, getD_some]
    have hvaluesEq : values = (range starts.length).map fun d => readAt starts d - (padDim pads d).low := by
      refine ext_getElem (by rw [hlen, length_map, length_range]) fun d hd _ => ?_
      obtain ⟨r, hr, -, -, heq⟩ := hat d (hlen ▸ hd)
      rw [getElem_map, getElem_range, hread d (hlen ▸ hd) r hr, ← heq, getD_eq_getElem _ _ hd]
    refine ⟨?_, fun e he => ⟨hinterior e he, hedge.1 e he, hedge.2 e he⟩, fun d hd => ?_, fun d hd => ?_,
      fun d hd => ?_, ?_⟩
    · rw [List.isEmpty_iff, ← length_eq_zero_iff] at hrank
      exact pos_of_ne_zero hrank
    · obtain ⟨r, hr, -⟩ := hat d hd
      rw [hread d hd r hr, hr]
    · obtain ⟨r, hr, hlow, -⟩ := hat d hd
      rwa [hread d hd r hr]
    · obtain ⟨r, hr, -, hend, -⟩ := hat d hd
      rwa [hread d hd r hr]
    · split_ifs at h with hshape huser
      · exact .inl ⟨hshape, (Padded.replaced.inj h).symm⟩
      · rw [hvaluesEq, List.map_map] at h
        exact .inr (Padded.replaced.inj h).symm

def newStart (pads : List PadDim) (original update : List Nat) (starts : List StartIndex) (d : Nat) : Int :=
  clampStart (coord original d) (coord update d) (readAt starts d - (padDim pads d).low)

def oldStart (pads : List PadDim) (original update : List Nat) (starts : List StartIndex) (d : Nat) : Int :=
  clampStart (coord (edgePadded pads original) d) (coord update d) (readAt starts d)

def InsidePad (pads : List PadDim) (original update : List Nat) (starts : List StartIndex) : Prop :=
  (∀ d < original.length, coord update d ≤ coord original d) ∧ (0 ∈ update ∨
    ∀ d < original.length, readAt starts d + coord update d < 2 ^ 63 ∨ (padDim pads d).high = 0)

instance (pads : List PadDim) (original update : List Nat) (starts : List StartIndex) :
    Decidable (InsidePad pads original update starts) := inferInstanceAs (Decidable (_ ∧ _))

/-- The start index that is clamped behind the low padding is the one that is clamped in the padded tensor. -/
theorem clampStart_padded_iff {p n u : Nat} {start low high : Int} (hp : (p : Int) = low + n + high) (hpos : 0 ≤ low)
    (hhigh : 0 ≤ high) (hlow : low ≤ start) (hend : int64 (start + u) ≤ low + n) (hu : u ≤ n) (hp' : p < 2 ^ 63)
    (hstart : start < 2 ^ 63) :
    (clampStart p u start : Int) = low + clampStart n u (start - low) ↔ start + u < 2 ^ 63 ∨ high = 0 := by
  rw [clampStart, clampStart]
  by_cases hlt : start + u < 2 ^ 63
  · rw [int64_of_lt (by omega) hlt] at hend
    omega
  · rw [int64_of_le (by omega) (by omega)] at hend
    omega

section

variable (hv : Verified (edgePadded pads original) update indexType starts) (hpads : pads.length = original.length)
  (hf : PadFired pads original update indexType starts new)

include hv hpads hf

omit hf in
theorem length_starts_pad : starts.length = original.length :=
  hv.length_starts.trans (length_edgePadded hpads)

omit hv in
theorem pad_nonneg (hd : d < original.length) : (padDim pads d).interior = 0 ∧ 0 ≤ (padDim pads d).low ∧
    0 ≤ (padDim pads d).high := by
  have hd' : d < pads.length := hpads.symm ▸ hd
  rw [padDim_eq_getElem hd']
  exact hf.edge _ (getElem_mem hd')

omit hv in
theorem coord_padded (hd : d < original.length) : (coord (edgePadded pads original) d : Int) =
    (padDim pads d).low + coord original d + (padDim pads d).high := by
  obtain ⟨-, hlow, hhigh⟩ := pad_nonneg hpads hf hd
  rw [coord_edgePadded hpads (fun e he => (hf.edge e he).1) hd, Int.toNat_of_nonneg (by omega)]

theorem makeAttr_newStart (hd : d < original.length) :
    DynamicSlices.makeAttr indexType (readAt starts d - (padDim pads d).low) = readAt starts d - (padDim pads d).low := by
  obtain ⟨-, hpos, -⟩ := pad_nonneg hpads hf hd
  have hd' : d < starts.length := (length_starts_pad hv hpads).symm ▸ hd
  have hlow := hf.low_le d hd'
  have hread := hf.reads d hd'
  have hmem : startAt starts d ∈ starts := by
    rw [startAt, getD_eq_getElem _ _ hd']
    exact getElem_mem hd'
  cases hstart : startAt starts d with
  | runtime => rw [hstart] at hread; cases hread
  | constant type n =>
    rw [hstart] at hmem hread
    obtain ⟨rfl, hn⟩ := hv.types type n hmem
    have heq : n = readAt starts d := eq_of_getSExtValue (d := .constant type n) ⟨rfl, hn⟩ hread (by omega)
    exact IntType.wrap_of_le hn (by omega) (by omega)

theorem exists_newPad (hfit : ∀ d < original.length, coord update d ≤ coord original d) (hu : u.shape = update)
    (hx : x.shape = original) (hxp : pad pads v x = some xp) : ∃ z, new.eval u x pads v = some z ∧
      z.shape = xp.shape ∧ ∀ c, z.read c =
        placed (fun d => (padDim pads d).low + newStart pads original update starts d) u xp c := by
  subst hu hx
  have hlen := length_starts_pad hv hpads
  have hrank : u.shape.length = x.shape.length := hv.fits.length_eq.trans (length_edgePadded hpads)
  have hedge : ∀ e ∈ pads, e.interior = 0 := fun e he => (hf.edge e he).1
  -- the new pad is one of a tensor that is updated
  have hupdated : ∀ w : Tensor α, w.shape = x.shape →
      (∀ c, Within x.shape c → w.read c = placed (newStart pads x.shape u.shape starts) u x c) →
        ∃ z, pad pads v w = some z ∧ z.shape = xp.shape ∧ ∀ c, z.read c =
          placed (fun d => (padDim pads d).low + newStart pads x.shape u.shape starts d) u xp c := by
    intro w hw hread
    obtain ⟨hok, -⟩ := ite_none_right_eq_some.mp hxp
    obtain ⟨z, hz⟩ : ∃ z, pad pads v w = some z := ⟨_, if_pos (hw.symm ▸ hok)⟩
    refine ⟨z, hz, by rw [shape_edgePadded hz, shape_edgePadded hxp, hw], fun c => ?_⟩
    refine read_pad_placed hxp hedge hz hw hrank (fun d hd => ?_) hread
    have hle := clampStart_le (hfit d hd) (readAt starts d - (padDim pads d).low)
    rw [newStart]
    omega
  obtain ⟨hshape, rfl⟩ | rfl := hf.new_eq
  · refine hupdated u hshape.symm fun c hc => ?_
    have hzero : ∀ d < x.shape.length, newStart pads x.shape u.shape starts d = 0 := by
      intro d hd
      have hle := clampStart_le (hfit d hd) (readAt starts d - (padDim pads d).low)
      rw [newStart]
      rw [hshape] at hle ⊢
      omega
    rw [placed, if_pos]
    · exact read_congr u fun d hd => by rw [hzero d (hrank ▸ hd), sub_zero, Int.toNat_natCast]
    · intro d hd
      have hlt := hc d hd
      rw [hzero d hd, ← hshape]
      omega
  · have hok : DynamicSliceOk x.shape u.shape ((range starts.length).map fun d =>
        DynamicSlices.makeAttr indexType (readAt starts d - (padDim pads d).low)).length := by
      refine ⟨by rw [length_map, length_range, hlen], forall₂_iff_get.mpr ⟨hrank, fun d hd hd' => ?_⟩⟩
      have hle := hfit d hd'
      rwa [coord_eq_getElem hd, coord_eq_getElem hd'] at hle
    obtain ⟨w, hw⟩ : ∃ w, dynamicUpdateSlice ((range starts.length).map fun d =>
        DynamicSlices.makeAttr indexType (readAt starts d - (padDim pads d).low)) u x = some w := ⟨_, if_pos hok⟩
    obtain ⟨-, hwshape, -⟩ := read_dynamicUpdateSlice hw
    obtain ⟨z, hz, hzshape, hzread⟩ := hupdated w hwshape fun c hc => by
      rw [SlicesOfUpdates.read_update hw hc]
      refine placed_congr (fun d hd => ?_) hrank
      have hd' : d < starts.length := hlen.symm ▸ hd
      rw [clamped, newStart, getD_eq_getElem _ _ (by rwa [length_map, length_range]), getElem_map,
        getElem_range, makeAttr_newStart hv hpads hf hd]
    exact ⟨z, by rw [ValueToPad.eval, hw]; exact hz, hzshape, hzread⟩

theorem eval_newPad_eq_none (hnot : ¬∀ d < original.length, coord update d ≤ coord original d) (hu : u.shape = update)
    (hx : x.shape = original) : new.eval u x pads v = none := by
  subst hu hx
  obtain ⟨hshape, -⟩ | rfl := hf.new_eq
  · exact absurd (fun d _ => by rw [hshape]) hnot
  · have hupd : dynamicUpdateSlice ((range starts.length).map fun d =>
        DynamicSlices.makeAttr indexType (readAt starts d - (padDim pads d).low)) u x = none := by
      refine if_neg fun hok => hnot fun d hd => ?_
      have hd' : d < u.shape.length := hok.2.length_eq.symm ▸ hd
      rw [coord_eq_getElem hd, coord_eq_getElem hd']
      exact (forall₂_iff_get.mp hok.2).2 d hd' hd
    rw [ValueToPad.eval, hupd]
    rfl

theorem preservesPad_iff [Nontrivial α] : PreservesPad α pads original update starts new ↔
    InsidePad pads original update starts := by
  have hlen := length_starts_pad hv hpads
  have hP := length_edgePadded hpads
  have hrank : update.length = original.length := hv.fits.length_eq.trans hP
  have hok : Forall₂ PadDim.Ok pads original := by
    refine forall₂_iff_get.mpr ⟨hpads, fun d hd hd' => ?_⟩
    have hat := hf.edge _ (getElem_mem hd)
    change 0 ≤ pads[d].interior ∧ 0 ≤ pads[d].size original[d]
    rw [PadDim.size_of_interior hat.1]
    omega
  -- where the update of the padded tensor starts
  have hclamped : ∀ ss, HaveValues starts ss → ∀ d < original.length, clamped (edgePadded pads original) update ss d =
      oldStart pads original update starts d := by
    intro ss hss d hd
    have hd' : d < starts.length := hlen.symm ▸ hd
    have hpos := (pad_nonneg hpads hf hd).2.1.trans (hf.low_le d hd')
    rw [clamped, value_eq hv hss (hP.symm ▸ hd) (hf.reads d hd') hpos, oldStart]
  have hiff : (∀ d < original.length, coord update d ≤ coord original d) → ∀ d < original.length,
      (oldStart pads original update starts d = (padDim pads d).low + newStart pads original update starts d ↔
          readAt starts d + coord update d < 2 ^ 63 ∨ (padDim pads d).high = 0) := by
    intro hfit d hd
    have hd' : d < starts.length := hlen.symm ▸ hd
    obtain ⟨-, hlow, hhigh⟩ := pad_nonneg hpads hf hd
    exact clampStart_padded_iff (coord_padded hpads hf hd) hlow hhigh (hf.low_le d hd') (hf.end_le d hd') (hfit d hd)
      (coord_lt_extents hv (hP.symm ▸ hd)) (readAt_bounds hv (hP.symm ▸ hd) (hf.reads d hd')).2
  constructor
  · intro hpreserves
    obtain ⟨ss, hss⟩ := exists_haveValues (fun d hd => ⟨_, hf.reads d hd⟩) hv
    -- the results for an operand with one value, which is that of the padding
    have hboth : ∀ (a : α) (u : Tensor α), u.shape = update → ∃ xp y z, pad pads a (splat original a) = some xp ∧
        dynamicUpdateSlice ss u xp = some y ∧ new.eval u (splat original a) pads a = some z ∧ Same z y := by
      intro a u hu
      obtain ⟨xp, hxp⟩ : ∃ xp, pad pads a (splat original a) = some xp := ⟨_, if_pos hok⟩
      have hshape : xp.shape = edgePadded pads original := shape_edgePadded hxp
      obtain ⟨y, hy⟩ : ∃ y, dynamicUpdateSlice ss u xp = some y :=
        ⟨_, if_pos ⟨by rw [hshape, hss.1, hv.length_starts], by rw [hshape, hu]; exact hv.fits⟩⟩
      obtain ⟨z, hz, hsame⟩ := hpreserves ss a u _ y hss hu rfl (by rw [hxp]; exact hy)
      exact ⟨xp, y, z, hxp, hy, hz, hsame⟩
    have hfit : ∀ d < original.length, coord update d ≤ coord original d := by
      by_contra hnot
      obtain ⟨a⟩ : Nonempty α := inferInstance
      obtain ⟨xp, y, z, -, -, hz, -⟩ := hboth a (splat update a) rfl
      rw [eval_newPad_eq_none hv hpads hf hnot rfl rfl] at hz
      cases hz
    refine ⟨hfit, ?_⟩
    by_contra hnot
    push Not at hnot
    obtain ⟨hempty, d, hd, hwraps, hhigh⟩ := hnot
    have hne := (hiff hfit d hd).not.mpr (by push Not; exact ⟨hwraps, hhigh⟩)
    have hin : Inside (edgePadded pads original).length update (oldStart pads original update starts) fun d =>
        (oldStart pads original update starts d).toNat :=
      inside_toNat hempty hv.fits.length_eq fun d _ => Int.natCast_nonneg _
    obtain ⟨u, a, hu, hplaced⟩ : ∃ (u : Tensor α) (a : α), u.shape = update ∧
        placed (oldStart pads original update starts) u (splat (edgePadded pads original) a)
            (fun d => (oldStart pads original update starts d).toNat) ≠
          placed (fun d => (padDim pads d).low + newStart pads original update starts d) u
            (splat (edgePadded pads original) a) (fun d => (oldStart pads original update starts d).toNat) :=
      exists_placed_splat_ne hv.fits.length_eq (hP.symm ▸ hd) hne hin
    obtain ⟨xp, y, z, hxp, hy, hz, hsame⟩ := hboth a u hu
    have hshape : xp.shape = edgePadded pads original := shape_edgePadded hxp
    obtain ⟨z', hz', hzshape, hzread⟩ := exists_newPad hv hpads hf hfit hu rfl hxp
    cases hz.symm.trans hz'
    refine hplaced ?_
    rw [← placed_of_read hshape (read_pad_splat hxp), ← placed_of_read hshape (read_pad_splat hxp)]
    have hc : Within xp.shape fun d => (oldStart pads original update starts d).toNat := by
      intro d hd
      rw [hshape] at hd ⊢
      have hle : oldStart pads original update starts d + coord update d ≤ coord (edgePadded pads original) d := by
        rw [oldStart]
        exact_mod_cast clampStart_le (coord_le_of_forall₂ hv.fits d) (readAt starts d)
      have hlt := (hin d hd).2
      beta_reduce at hlt ⊢
      omega
    have hyread := SlicesOfUpdates.read_update hy hc
    have hzy := hsame.read_eq (hzshape.symm ▸ hc)
    rw [hzread, hyread] at hzy
    refine Eq.trans (placed_congr (fun d hd => ?_) ?_) hzy.symm
    · rw [hshape, hu, hclamped ss hss d (by rwa [hshape, hP] at hd)]
    · rw [hu, hshape, hP, hrank]
  · rintro ⟨hfit, hcase⟩ ss v u x y hss rfl rfl hy
    obtain ⟨xp, hxp, hy⟩ := bind_eq_some_iff.mp hy
    obtain ⟨z, hz, hzshape, hzread⟩ := exists_newPad hv hpads hf hfit rfl rfl hxp
    obtain ⟨-, hyshape, -⟩ := read_dynamicUpdateSlice hy
    have hshape := shape_edgePadded hxp
    have hxrank : xp.shape.length = x.shape.length := by rw [hshape, hP]
    refine ⟨z, hz, same_of_read (hzshape.trans hyshape.symm) fun c hc => ?_⟩
    rw [hzread, SlicesOfUpdates.read_update hy (hzshape ▸ hc)]
    obtain hempty | hcase := hcase
    · rw [placed_empty hempty (hrank.trans hxrank.symm), placed_empty hempty (hrank.trans hxrank.symm)]
    · refine placed_congr (fun d hd => ?_) (hrank.trans hxrank.symm)
      have hd' : d < x.shape.length := hxrank ▸ hd
      rw [hshape, hclamped ss hss d hd', ← (hiff hfit d hd').mpr (hcase d hd')]

end

end

/-! ### Concatenations -/

section

variable {α : Type} {ss ss' : List Int} {u x y p : Tensor α} {d a b : Nat} {c : Nat → Nat} {start : Nat → Int}

theorem placed_of_outside (hd : d < x.shape.length) (hout : ¬(start d ≤ c d ∧ c d < start d + coord u.shape d)) :
    placed start u x c = x.read c := if_neg fun hin => hout (hin d hd)

section

variable (hy : dynamicUpdateSlice ss u x = some y) (hd : d < x.shape.length)

include hy hd

theorem tile_operand (hle : a ≤ b) (hb : b ≤ coord x.shape d) (hout : (b : Int) ≤ clamped x.shape u.shape ss d ∨
      clamped x.shape u.shape ss d + coord u.shape d ≤ a) :
    ∃ p, slice (sliceAlong d a b x.shape) x = some p ∧ Tile d y a b p := by
  obtain ⟨-, hyshape, -⟩ := read_dynamicUpdateSlice hy
  refine tile_slice hd hyshape hle hb fun c hc hlow hhigh => ?_
  rw [SlicesOfUpdates.read_update hy hc]
  exact placed_of_outside hd (by omega)

theorem tile_update (ha : clamped x.shape u.shape ss d = a) (hspans : ∀ e < x.shape.length, e ≠ d →
      clamped x.shape u.shape ss e = 0 ∧ coord u.shape e = coord x.shape e) : Tile d y a (a + coord u.shape d) u := by
  obtain ⟨hok, hyshape, -⟩ := read_dynamicUpdateSlice hy
  have hrank : u.shape.length = x.shape.length := hok.2.length_eq
  refine ⟨le_self_add, eq_of_coord ?_ fun e he => ?_, fun c hc hlow hhigh => ?_⟩
  · rw [hrank, hyshape, length_set]
  · rw [hrank] at he
    rw [hyshape]
    by_cases hed : e = d
    · rw [hed, coord_set_self hd, Nat.add_sub_cancel_left]
    · rw [coord_set_of_ne hed, (hspans e he hed).2]
  · rw [hyshape] at hc
    rw [SlicesOfUpdates.read_update hy hc, placed, if_pos]
    · refine read_congr u fun e he => ?_
      rw [hrank] at he
      by_cases hed : e = d
      · rw [hed, update_self, ha]
        omega
      · rw [update_of_ne hed, (hspans e he hed).1, sub_zero, Int.toNat_natCast]
    · intro e he
      by_cases hed : e = d
      · rw [hed, ha]
        omega
      · have hlt := hc e he
        rw [(hspans e he hed).1, (hspans e he hed).2]
        omega

theorem tile_newDus (hss' : ss'.length = ss.length)
    (hstarts : ∀ e < x.shape.length, e ≠ d → ss'.getD e 0 = ss.getD e 0) (hzero : ss'.getD d 0 = 0)
    (ha : clamped x.shape u.shape ss d = a) (hsize : a + coord u.shape d ≤ b) (hb : b ≤ coord x.shape d) :
    ∃ p p', slice (sliceAlong d a b x.shape) x = some p ∧ dynamicUpdateSlice ss' u p = some p' ∧ Tile d y a b p' := by
  obtain ⟨hok, hyshape, -⟩ := read_dynamicUpdateSlice hy
  have hrank : u.shape.length = x.shape.length := hok.2.length_eq
  obtain ⟨p, hp, hpshape, hpread⟩ : ∃ p, slice (sliceAlong d a b x.shape) x = some p ∧
      p.shape = x.shape.set d (b - a) ∧ ∀ c, Within x.shape c → a ≤ c d → c d < b →
        p.read (update c d (c d - a)) = x.read c := by
    obtain ⟨p, hp, -, hshape, hread⟩ := tile_slice hd rfl (show a ≤ b by omega) hb fun c _ _ _ => rfl
    exact ⟨p, hp, hshape, hread⟩
  have hprank : p.shape.length = x.shape.length := by rw [hpshape, length_set]
  have hpcoord : ∀ e, e ≠ d → coord p.shape e = coord x.shape e := fun e hed => by
    rw [hpshape, coord_set_of_ne hed]
  have hpcoord' : coord p.shape d = b - a := by rw [hpshape, coord_set_self hd]
  have hfits : Forall₂ (· ≤ ·) u.shape p.shape := by
    refine forall₂_iff_get.mpr ⟨hrank.trans hprank.symm, fun e he he' => ?_⟩
    rw [get_eq_getElem, get_eq_getElem, ← coord_eq_getElem he, ← coord_eq_getElem he']
    by_cases hed : e = d
    · rw [hed, hpcoord']
      omega
    · have hx : e < x.shape.length := hprank ▸ he'
      rw [hpcoord e hed, coord_eq_getElem he, coord_eq_getElem hx]
      exact (forall₂_iff_get.mp hok.2).2 e he hx
  obtain ⟨p', hp'⟩ : ∃ p', dynamicUpdateSlice ss' u p = some p' :=
    ⟨_, if_pos ⟨by rw [hss', hok.1, hprank], hfits⟩⟩
  obtain ⟨-, hp'shape, -⟩ := read_dynamicUpdateSlice hp'
  have hclamped : ∀ e < x.shape.length, e ≠ d →
      clamped p.shape u.shape ss' e = clamped x.shape u.shape ss e := fun e he hed => by
    rw [clamped, clamped, hpcoord e hed, hstarts e he hed]
  have hclamped' : clamped p.shape u.shape ss' d = 0 := by
    rw [clamped, hzero, clampStart]
    omega
  refine ⟨p, p', hp, hp', by omega, by rw [hp'shape, hpshape, hyshape], fun c hc hlow hhigh => ?_⟩
  rw [hyshape] at hc
  have hc' : Within p.shape (update c d (c d - a)) := by
    rw [hpshape]
    exact within_set hd hc (by omega)
  rw [SlicesOfUpdates.read_update hp' hc', SlicesOfUpdates.read_update hy hc, placed, placed, hpread c hc hlow hhigh]
  refine if_congr ?_ (read_congr u fun e he => ?_) rfl
  · rw [hprank]
    refine forall₂_congr fun e he => ?_
    by_cases hed : e = d
    · rw [hed, hclamped', ha, update_self]
      omega
    · rw [hclamped e he hed, update_of_ne hed]
  · rw [hrank] at he
    by_cases hed : e = d
    · rw [hed, hclamped', ha, update_self]
      omega
    · rw [hclamped e he hed, update_of_ne hed]

end

end

section

variable {α : Type} {shape update : List Nat} {starts : List StartIndex} {indexType : IntType} {dim : Nat}
  {pieces : List Piece}

def newPieces (shape : List Nat) (dim : Nat) (startv updateEnd : Int) : List Piece :=
  (if startv ≠ 0 then [Piece.operand (sliceAlong dim 0 startv shape)] else []) ++ [Piece.update] ++
    if updateEnd ≠ coord shape dim then [Piece.operand (sliceAlong dim updateEnd (coord shape dim) shape)] else []

structure ConcatFired (starts : List StartIndex) (update shape : List Nat) (dim : Nat)
    (pieces : List Piece) : Prop where
  dim_lt : dim < shape.length
  reads : ReadAs starts shape.length (readAt starts)
  nonneg : ∀ d < shape.length, 0 ≤ readAt starts d
  end_le : int64 (readAt starts dim + coord update dim) ≤ coord shape dim
  spans : ∀ e < shape.length, e ≠ dim → readAt starts e = 0 ∧ coord update e = coord shape e
  pieces_eq : pieces = newPieces shape dim (readAt starts dim) (int64 (readAt starts dim + coord update dim))

theorem concatFired_of_eq_some (hlen : starts.length = shape.length)
    (h : DynamicUpdateToConcat starts update shape = some (dim, pieces)) : ConcatFired starts update shape dim pieces := by
  obtain ⟨values, hvals, h⟩ := bind_eq_some_iff.mp h
  obtain ⟨-, hreads⟩ := readAs_of_allSome hlen hvals
  have hat : ∀ d < shape.length, readAt starts d = values.getD d 0 := fun d hd => readAs_readAt hreads hd
  dsimp only at h
  split at h
  · cases h
  rename_i hneg
  split at h
  · cases h
  rename_i hend
  simp only [List.any_eq_true, mem_range, decide_eq_true_eq, not_exists, not_and, not_lt] at hneg hend
  split at h
  · rename_i found hfilter
    obtain ⟨rfl, rfl⟩ := Prod.mk.inj (some.inj h)
    have hmem : ∀ d, d = found ↔ d < shape.length ∧ ¬Spans values update shape d := by
      intro d
      rw [← mem_singleton, ← hfilter, mem_filter, mem_range, decide_eq_true_eq]
    have hdim := ((hmem found).mp rfl).1
    refine ⟨hdim, fun d hd => by rw [hreads d hd, hat d hd], fun d hd => ?_, ?_, fun e he hne => ?_, ?_⟩
    · rw [hat d hd]
      exact hneg d hd
    · rw [hat _ hdim]
      exact hend _ hdim
    · have hspans : Spans values update shape e := by
        by_contra hnot
        exact hne ((hmem e).mpr ⟨he, hnot⟩)
      rw [hat e he]
      exact hspans
    · rw [newPieces, hat _ hdim]
  · cases h

variable (hv : Verified shape update indexType starts)

include hv in
theorem clamped_eq {ss : List Int} (hss : HaveValues starts ss) {d : Nat} (hd : d < shape.length)
    (hread : (startAt starts d).getSExtValue = some (readAt starts d)) (hpos : 0 ≤ readAt starts d)
    (hend : readAt starts d + coord update d ≤ coord shape d) : clamped shape update ss d = readAt starts d := by
  rw [clamped, value_eq hv hss hd hread hpos, clampStart]
  omega

include hv in
theorem exists_updated {ss : List Int} (hss : HaveValues starts ss) {u x : Tensor α} (hu : u.shape = update)
    (hx : x.shape = shape) : ∃ y, dynamicUpdateSlice ss u x = some y :=
  ⟨_, if_pos ⟨by rw [hss.1, hv.length_starts, hx], by rw [hu, hx]; exact hv.fits⟩⟩

theorem exists_end {ss : List Int} {u x y : Tensor α} {d a b : Nat} {lo hi : Int} {P : Prop} [Decidable P]
    (hy : dynamicUpdateSlice ss u x = some y) (hd : d < x.shape.length) (hle : a ≤ b) (hb : b ≤ coord x.shape d)
    (hout : (b : Int) ≤ clamped x.shape u.shape ss d ∨ clamped x.shape u.shape ss d + coord u.shape d ≤ a)
    (hlo : lo = a) (hhi : hi = b) (hP : ¬P → a = b) :
    ∃ ps, allSome ((if P then [Piece.operand (sliceAlong d lo hi x.shape)] else []).map (Piece.eval u x)) = some ps ∧
      Tiles d y a b ps := by
  split
  · obtain ⟨p, hp, htile⟩ := tile_operand hy hd hle hb hout
    rw [← hlo, ← hhi] at hp
    exact ⟨[p], allSome_map_iff.mpr (.cons hp .nil), htile.tiles⟩
  · rename_i hnot
    obtain rfl := hP hnot
    exact ⟨[], rfl, .nil a⟩

theorem preservesConcat_iff [Nonempty α] (hv : Verified shape update indexType starts)
    (hf : ConcatFired starts update shape dim pieces) :
    Preserves α shape update starts (fun u x => concatPieces u x dim pieces) ↔
      readAt starts dim + coord update dim < 2 ^ 63 := by
  have hreads : ∀ d < shape.length, (startAt starts d).getSExtValue = some (readAt starts d) := hf.reads
  have hpos := hf.nonneg dim hf.dim_lt
  constructor
  · intro h
    by_contra hwraps
    obtain ⟨ss, hss⟩ := exists_haveValues (fun d hd => ⟨_, hreads d (hv.length_starts ▸ hd)⟩) hv
    obtain ⟨a⟩ : Nonempty α := inferInstance
    obtain ⟨y, hy⟩ : ∃ y, dynamicUpdateSlice ss (splat update a) (splat shape a) = some y := exists_updated hv hss rfl rfl
    obtain ⟨z, hz, -⟩ := h ss _ _ y hss rfl rfl hy
    -- the last piece starts before the operand does
    obtain ⟨xs, hxs, -⟩ := bind_eq_some_iff.mp hz
    have hsize := coord_lt_extents hv hf.dim_lt
    have hupd := coord_le_of_forall₂ hv.fits dim
    have hstart := (readAt_bounds hv hf.dim_lt (hreads dim hf.dim_lt)).2
    have hwrapped := int64_of_le (n := readAt starts dim + coord update dim) (by omega) (by omega)
    have hmem : Piece.operand (sliceAlong dim (int64 (readAt starts dim + coord update dim)) (coord shape dim) shape) ∈
        pieces := by
      have hne : int64 (readAt starts dim + coord update dim) ≠ coord shape dim := by omega
      rw [hf.pieces_eq, newPieces, if_pos hne]
      exact mem_append_right _ mem_cons_self
    obtain ⟨i, hi, hget⟩ := getElem_of_mem hmem
    have hall := allSome_map_iff.mp hxs
    have hp := (forall₂_iff_get.mp hall).2 i hi (hall.length_eq ▸ hi)
    rw [get_eq_getElem, hget] at hp
    have hok := (along_of_slice (x := splat shape a) hf.dim_lt hp).1
    omega
  · rintro hlt ss u x y hss rfl rfl hy
    obtain ⟨start, hstart⟩ := Int.eq_ofNat_of_zero_le hpos
    have hend := hf.end_le
    rw [int64_of_lt (by omega) hlt] at hend
    have hclamped := clamped_eq hv hss hf.dim_lt (hreads dim hf.dim_lt) hpos hend
    have hspans : ∀ e < x.shape.length, e ≠ dim →
        clamped x.shape u.shape ss e = 0 ∧ coord u.shape e = coord x.shape e := by
      intro e he hne
      obtain ⟨hzero, hsize⟩ := hf.spans e he hne
      rw [clamped_eq hv hss he (hreads e he) (by omega) (by omega)]
      exact ⟨hzero, hsize⟩
    rw [hstart] at hclamped hend
    have hmiddle := tile_update hy hf.dim_lt hclamped hspans
    obtain ⟨pre, hpre, hpreTiles⟩ : ∃ pre, allSome ((if readAt starts dim ≠ 0 then
        [Piece.operand (sliceAlong dim 0 (readAt starts dim) x.shape)] else []).map (Piece.eval u x)) = some pre ∧
          Tiles dim y 0 start pre :=
      exists_end hy hf.dim_lt (Nat.zero_le start) (by omega) (by omega) rfl hstart (by omega)
    obtain ⟨post, hpost, hpostTiles⟩ : ∃ post, allSome ((if (readAt starts dim + coord u.shape dim : Int) ≠
        coord x.shape dim then [Piece.operand (sliceAlong dim (readAt starts dim + coord u.shape dim)
          (coord x.shape dim) x.shape)] else []).map (Piece.eval u x)) = some post ∧
            Tiles dim y (start + coord u.shape dim) (coord x.shape dim) post :=
      exists_end hy hf.dim_lt (by omega) le_rfl (by omega) (by omega) rfl (by omega)
    obtain ⟨-, hyshape, -⟩ := read_dynamicUpdateSlice hy
    have htiles := (hpreTiles.append hmiddle.tiles).append hpostTiles
    rw [← hyshape] at htiles
    obtain ⟨z, hz, hsame⟩ := concatenate_tiles (hyshape.symm ▸ hf.dim_lt) (by simp) htiles
    have hall : allSome (pieces.map (Piece.eval u x)) = some (pre ++ [u] ++ post) := by
      rw [hf.pieces_eq, newPieces, int64_of_lt (by omega) hlt]
      refine allSome_map_iff.mpr (rel_append (rel_append (allSome_map_iff.mp hpre) ?_) (allSome_map_iff.mp hpost))
      exact .cons rfl .nil
    refine ⟨z, ?_, hsame⟩
    change (allSome (pieces.map (Piece.eval u x))).bind (concatenate dim) = some z
    rw [hall]
    exact hz

end

/-! ### One dimension at a time -/

theorem findDifferingDim_eq (starts : List Int) (update shape : List Nat) : findDifferingDim starts update shape =
    (((range shape.length).filter fun d => ¬Spans starts update shape d).getLast?,
      decide (((range shape.length).filter fun d => ¬Spans starts update shape d).length = 1)) := by
  have hfold : ∀ dims found : List Nat, dims.foldl (differingStep starts update shape)
      (found.getLast?, decide (found.length = 1)) =
        ((found ++ dims.filter fun d => ¬Spans starts update shape d).getLast?,
          decide ((found ++ dims.filter fun d => ¬Spans starts update shape d).length = 1)) := by
    intro dims
    induction dims with
    | nil => exact fun found => by rw [filter_nil, append_nil, foldl_nil]
    | cons d dims ih =>
      intro found
      rw [foldl_cons, differingStep]
      by_cases hspans : Spans starts update shape d
      · rw [if_pos hspans, filter_cons_of_neg (by simpa using hspans)]
        exact ih found
      · rw [if_neg hspans, filter_cons_of_pos (by simpa using hspans)]
        have hnext := ih (found ++ [d])
        rw [append_assoc, singleton_append, getLast?_concat, length_append] at hnext
        have hsingle : found.getLast?.isNone = decide (found.length + [d].length = 1) := by
          rw [Bool.eq_iff_iff, isNone_iff_eq_none, getLast?_eq_none_iff, decide_eq_true_eq,
            ← length_eq_zero_iff, length_singleton]
          omega
        rw [← hnext, hsingle]
  exact hfold (range shape.length) []

section

variable {α : Type} {shape update : List Nat} {starts : List StartIndex} {indexType : IntType} {d : Nat}
    {new : Replacement}
  {ss : List Int} {u x y : Tensor α}

def readStarts (starts : List StartIndex) : List Int := starts.map fun s => s.getSExtValue.getD 0

/-- The update is within the dimension that is peeled, and is not at an end of it if there is no other one. -/
def Kept (starts : List StartIndex) (update shape : List Nat) : Prop :=
  ∀ d < shape.length, ∀ single, findDifferingDim (readStarts starts) update shape = (some d, single) →
    0 ≤ readAt starts d ∧ readAt starts d + coord update d ≤ coord shape d ∧ (0 ∈ update ∨
      ¬(single = true ∧ (readAt starts d = 0 ∨ readAt starts d + coord update d = coord shape d)))

instance (starts : List StartIndex) (update shape : List Nat) : Decidable (Kept starts update shape) :=
  inferInstanceAs (Decidable (∀ d < shape.length, ∀ _ : Bool, _ → _))

theorem values_set (hss : HaveValues starts ss)
    (hconst : ∀ d < starts.length, ∃ r, (startAt starts d).getSExtValue = some r) :
    values (starts.set d (.constant indexType 0)) = some (ss.set d 0) := by
  refine allSome_map_iff.mpr (forall₂_iff_get.mpr ⟨?_, fun i hi hi' => ?_⟩)
  · rw [length_set, length_set, hss.1]
  · rw [length_set] at hi hi'
    rw [get_eq_getElem, get_eq_getElem, getElem_set, getElem_set]
    by_cases hdi : d = i
    · rw [if_pos hdi, if_pos hdi]
    · rw [if_neg hdi, if_neg hdi]
      obtain ⟨r, hr⟩ := hconst i hi
      have hhas := hss.2 i hi
      rw [startAt, getD_eq_getElem _ _ hi] at hr hhas
      rw [getD_eq_getElem _ _ hi'] at hhas
      cases hstart : starts[i] with
      | runtime => rw [hstart] at hr; cases hr
      | constant type n =>
        rw [hstart] at hhas
        rw [hhas.1]

theorem empty_of_dropped [Nontrivial α] (hv : Verified shape update indexType starts) (hss : HaveValues starts ss)
    (h : ∀ u x y : Tensor α, u.shape = update → x.shape = shape → dynamicUpdateSlice ss u x = some y → Same x y) :
    0 ∈ update := by
  by_contra hempty
  obtain ⟨a, b, hab⟩ := exists_pair_ne α
  obtain ⟨y, hy⟩ : ∃ y, dynamicUpdateSlice ss (splat update b) (splat shape a) = some y := exists_updated hv hss rfl rfl
  have hin : Inside shape.length update (clamped shape update ss) fun d => (clamped shape update ss d).toNat :=
    inside_toNat hempty hv.fits.length_eq fun d _ => Int.natCast_nonneg _
  have hc : Within shape fun d => (clamped shape update ss d).toNat := by
    intro d hd
    have hle : clamped shape update ss d + coord update d ≤ coord shape d := by
      rw [clamped]
      exact_mod_cast clampStart_le (coord_le_of_forall₂ hv.fits d) (ss.getD d 0)
    have hlt := (hin d hd).2
    beta_reduce at hlt ⊢
    omega
  have hread := (h _ _ y rfl rfl hy).read_eq hc
  rw [SlicesOfUpdates.read_update hy hc, placed, if_pos (by exact hin)] at hread
  exact hab hread

variable {pre post : Half}

theorem exists_concat {ps : List (Tensor α)} {p q : Tensor α} (hd : d < x.shape.length)
    (hy : dynamicUpdateSlice ss u x = some y) (hpre : pre.eval u x = some p) (hpost : post.eval u x = some q)
    (hps : ps = [p, q]) (h : Tiles d y 0 (coord x.shape d) ps) :
    ∃ z, (Replacement.concat d pre post).eval u x = some z ∧ Same z y := by
  obtain ⟨-, hyshape, -⟩ := read_dynamicUpdateSlice hy
  subst hps
  rw [← hyshape] at h
  obtain ⟨z, hz, hsame⟩ := concatenate_tiles (hyshape.symm ▸ hd) (cons_ne_nil _ _) h
  refine ⟨z, ?_, hsame⟩
  rw [Replacement.eval, hpre, hpost]
  exact hz

theorem halves_of_eval {z : Tensor α} (h : (Replacement.concat d pre post).eval u x = some z) :
    ∃ p q, pre.eval u x = some p ∧ post.eval u x = some q ∧ concatenate d [p, q] = some z := by
  obtain ⟨p, hp, h⟩ := bind_eq_some_iff.mp h
  obtain ⟨q, hq, h⟩ := bind_eq_some_iff.mp h
  exact ⟨p, q, hp, hq, h⟩

section

variable (hv : Verified shape update indexType starts) (hd : d < shape.length)
  (hreads : ∀ d < shape.length, (startAt starts d).getSExtValue = some (readAt starts d))

include hv hd hreads

theorem exists_newDus {a b : Nat} (hss : HaveValues starts ss) (hx : x.shape = shape) (hu : u.shape = update)
    (hy : dynamicUpdateSlice ss u x = some y) (ha : clamped shape update ss d = a) (hsize : a + coord update d ≤ b)
    (hb : b ≤ coord shape d) : ∃ p', (Half.newDus (sliceAlong d a b shape)
      (starts.set d (.constant indexType 0))).eval u x = some p' ∧ Tile d y a b p' := by
  subst hx hu
  have hlen : ss.length = x.shape.length := hss.1.trans hv.length_starts
  obtain ⟨p, p', hp, hp', htile⟩ := tile_newDus hy hd (@length_set _ ss d 0)
    (fun e _ hne => by rw [getD_eq_getElem?_getD, getElem?_set_ne hne.symm, ← getD_eq_getElem?_getD])
    (by rw [getD_eq_getElem _ _ (by rw [length_set]; omega), getElem_set_self]) ha hsize hb
  refine ⟨p', ?_, htile⟩
  rw [Half.eval, values_set hss fun e he => ⟨_, hreads e (hv.length_starts ▸ he)⟩]
  change (slice (sliceAlong d a b x.shape) x).bind (dynamicUpdateSlice (ss.set d 0) u) = some p'
  rw [hp]
  exact hp'

theorem preserves_dropped_iff [Nontrivial α] {m : Nat} (hm : m ≤ coord shape d) :
    Preserves α shape update starts (fun u x => (Replacement.concat d (.slice (sliceAlong d 0 m shape))
      (.slice (sliceAlong d m (coord shape d) shape))).eval u x) ↔ 0 ∈ update := by
  have hhalves : ∀ u x y : Tensor α, x.shape = shape → y.shape = shape → (∀ c, Within shape c → y.read c = x.read c) →
      ∃ p q, slice (sliceAlong d 0 m shape) x = some p ∧ slice (sliceAlong d m (coord shape d) shape) x = some q ∧
        Tiles d y 0 (coord shape d) [p, q] := by
    rintro u x y rfl hyshape hread
    obtain ⟨p, hp, hptile⟩ := tile_slice hd hyshape (Nat.zero_le m) hm fun c hc _ _ => hread c hc
    obtain ⟨q, hq, hqtile⟩ := tile_slice hd hyshape hm le_rfl fun c hc _ _ => hread c hc
    exact ⟨p, q, hp, hq, .cons hptile hqtile.tiles⟩
  constructor
  · intro h
    obtain ⟨ss, hss⟩ := exists_haveValues (fun d hd => ⟨_, hreads d (hv.length_starts ▸ hd)⟩) hv
    refine empty_of_dropped (α := α) hv hss fun u x y hu hx hy => ?_
    obtain ⟨z, hz, hsame⟩ := h ss u x y hss hu hx hy
    obtain ⟨p, q, hp, hq, hz⟩ := halves_of_eval hz
    obtain ⟨p', q', hp', hq', htiles⟩ := hhalves u x x hx hx fun _ _ => rfl
    cases hp.symm.trans hp'
    cases hq.symm.trans hq'
    rw [← hx] at htiles hd
    obtain ⟨z', hz', hsame'⟩ := concatenate_tiles hd (cons_ne_nil _ _) htiles
    cases hz.symm.trans hz'
    exact hsame'.symm.trans hsame
  · rintro hempty ss u x y hss rfl rfl hy
    obtain ⟨hok, hyshape, -⟩ := read_dynamicUpdateSlice hy
    obtain ⟨p, q, hp, hq, htiles⟩ := hhalves u x y rfl hyshape fun c hc => by
      rw [SlicesOfUpdates.read_update hy hc, placed_empty hempty hok.2.length_eq]
    exact exists_concat hd hy hp hq rfl htiles

theorem preserves_post_iff [Nonempty α] : Preserves α shape update starts (fun u x =>
    (Replacement.concat d (.slice (sliceAlong d 0 (readAt starts d) shape))
      (.newDus (sliceAlong d (readAt starts d) (coord shape d) shape)
        (starts.set d (.constant indexType 0)))).eval u x) ↔
      0 ≤ readAt starts d ∧ readAt starts d + coord update d ≤ coord shape d := by
  constructor
  · intro h
    obtain ⟨ss, hss⟩ := exists_haveValues (fun d hd => ⟨_, hreads d (hv.length_starts ▸ hd)⟩) hv
    obtain ⟨a⟩ : Nonempty α := inferInstance
    obtain ⟨y, hy⟩ : ∃ y, dynamicUpdateSlice ss (splat update a) (splat shape a) = some y := exists_updated hv hss rfl rfl
    obtain ⟨z, hz, -⟩ := h ss _ _ y hss rfl rfl hy
    obtain ⟨p, q, hp, hq, -⟩ := halves_of_eval hz
    obtain ⟨-, hpos, -⟩ := along_of_slice (x := splat shape a) hd hp
    obtain ⟨ss', -, hq⟩ := bind_eq_some_iff.mp hq
    obtain ⟨t, ht, hq⟩ := bind_eq_some_iff.mp hq
    obtain ⟨-, hle, -, halong⟩ := along_of_slice (x := splat shape a) hd ht
    obtain ⟨hok, -, -⟩ := read_dynamicUpdateSlice hq
    have hsize := coord_le_of_forall₂ hok.2 d
    rw [halong.coord_shape hd] at hsize
    change coord update d ≤ ((coord shape d : Int) - readAt starts d).toNat at hsize
    change readAt starts d ≤ coord shape d at hle
    omega
  · rintro ⟨hpos, hend⟩ ss u x y hss rfl rfl hy
    obtain ⟨start, hstart⟩ := Int.eq_ofNat_of_zero_le hpos
    have hclamped := clamped_eq hv hss hd (hreads d hd) hpos hend
    rw [hstart] at hclamped hend ⊢
    obtain ⟨p, hp, hptile⟩ := tile_operand hy hd (Nat.zero_le start) (by omega) (.inl (by omega))
    obtain ⟨q, hq, hqtile⟩ := exists_newDus hv hd hreads hss rfl rfl hy hclamped (by omega) le_rfl
    exact exists_concat hd hy hp hq rfl (.cons hptile hqtile.tiles)

theorem preserves_pre (hzero : readAt starts d = 0) : Preserves α shape update starts (fun u x =>
    (Replacement.concat d (.newDus (sliceAlong d 0 (coord update d) shape) (starts.set d (.constant indexType 0)))
      (.slice (sliceAlong d (coord update d) (coord shape d) shape))).eval u x) := by
  rintro ss u x y hss rfl rfl hy
  have hle := coord_le_of_forall₂ hv.fits d
  have hclamped := clamped_eq hv hss hd (hreads d hd) (by omega) (by omega)
  rw [hzero] at hclamped
  obtain ⟨p, hp, hptile⟩ := exists_newDus (a := 0) hv hd hreads hss rfl rfl hy hclamped (zero_add _).le hle
  obtain ⟨q, hq, hqtile⟩ := tile_operand hy hd hle le_rfl (.inr (by omega))
  exact exists_concat hd hy hp hq rfl (.cons hptile hqtile.tiles)

end

theorem preserves_update (hshape : shape = update) :
    Preserves α shape update starts (fun u x => Replacement.update.eval u x) := by
  rintro ss u x y - hu hx hy
  obtain ⟨hok, -, -⟩ := read_dynamicUpdateSlice hy
  obtain ⟨y', hy', hsame⟩ := dynamicUpdateSlice_full hok.1 (hu.trans (hshape.symm.trans hx.symm))
  cases hy.symm.trans hy'
  exact ⟨u, rfl, hsame.symm⟩

/-- A half of the operand, with the update at its start, or without. -/
def peeledHalf (updated : Prop) [Decidable updated] (starts : List StartIndex) (indexType : IntType) (dim : Nat)
    (dims : List SliceDim) : Half :=
  if updated then .newDus dims (starts.set dim (.constant indexType 0)) else .slice dims

structure Peeled (starts : List StartIndex) (update shape : List Nat) (indexType : IntType) (dim : Nat) (single : Bool)
    (pre post : Half) : Prop where
  dim_lt : dim < shape.length
  reads : ∀ d < shape.length, (startAt starts d).getSExtValue = some (readAt starts d)
  found : findDifferingDim (readStarts starts) update shape = (some dim, single)
  differs : ¬(readAt starts dim = 0 ∧ coord update dim = coord shape dim)
  halves : readAt starts dim = 0 ∧
        pre = peeledHalf (single = false) starts indexType dim (sliceAlong dim 0 (coord update dim) shape) ∧
        post = .slice (sliceAlong dim (coord update dim) (coord shape dim) shape) ∨
      readAt starts dim ≠ 0 ∧ pre = .slice (sliceAlong dim 0 (readAt starts dim) shape) ∧
        post = peeledHalf (¬(single = true ∧ readAt starts dim + coord update dim = coord shape dim)) starts indexType
          dim (sliceAlong dim (readAt starts dim) (coord shape dim) shape)

theorem int64_eq_iff (hv : Verified shape update indexType starts) (hd : d < shape.length)
    (hread : (startAt starts d).getSExtValue = some (readAt starts d)) :
    int64 (readAt starts d + coord update d) = coord shape d ↔ readAt starts d + coord update d = coord shape d := by
  have hle := coord_le_of_forall₂ hv.fits d
  have hlt := coord_lt_extents hv hd
  have hbounds := readAt_bounds hv hd hread
  by_cases hhigh : readAt starts d + coord update d < 2 ^ 63
  · rw [int64_of_lt (by omega) hhigh]
  · rw [int64_of_le (by omega) (by omega)]
    omega

theorem replacement_cases (hv : Verified shape update indexType starts)
    (h : DUSToConcat starts update shape indexType = some new) :
    shape = update ∧ new = .update ∧ (∀ dim single, dim < shape.length →
        findDifferingDim (readStarts starts) update shape ≠ (some dim, single)) ∨
      ∃ dim single pre post, new = .concat dim pre post ∧ Peeled starts update shape indexType dim single pre post := by
  rw [DUSToConcat] at h
  split at h
  · rename_i hrank
    cases h
    refine .inl ⟨?_, rfl, fun dim single hdim => absurd hdim (by omega)⟩
    rw [length_eq_zero_iff.mp hrank, length_eq_zero_iff.mp (hv.fits.length_eq.trans hrank)]
  · obtain ⟨dusStartIndices, hvals, h⟩ := bind_eq_some_iff.mp h
    obtain ⟨-, hreads'⟩ := readAs_of_allSome hv.length_starts hvals
    have hat : ∀ d < shape.length, readAt starts d = dusStartIndices.getD d 0 := fun d hd => readAs_readAt hreads' hd
    have hreads : ∀ d < shape.length, (startAt starts d).getSExtValue = some (readAt starts d) := fun d hd => by
      rw [hreads' d hd, hat d hd]
    have hvaluesEq : dusStartIndices = readStarts starts := by
      have hall := allSome_eq_some_iff.mp hvals
      have hmap := congrArg (List.map fun s : Option Int => s.getD 0) hall
      rw [List.map_map, List.map_map] at hmap
      exact (hmap.trans (map_id _)).symm
    split at h
    · rename_i hfound
      obtain ⟨hshape, h⟩ := ite_none_right_eq_some.mp h
      refine .inl ⟨hshape, (some.inj h).symm, fun dim single _ heq => ?_⟩
      rw [← hvaluesEq, hfound] at heq
      cases (Prod.mk.inj heq).1
    · rename_i dim single hfound
      have hmem : dim ∈ (range shape.length).filter fun d => ¬Spans dusStartIndices update shape d := by
        have hlast := congrArg Prod.fst hfound
        rw [findDifferingDim_eq] at hlast
        exact mem_of_getLast? hlast
      rw [mem_filter, mem_range, decide_eq_true_eq] at hmem
      obtain ⟨hdim, hspans⟩ := hmem
      have hend := int64_eq_iff hv hdim (hreads dim hdim)
      have hlt := coord_lt_extents hv hdim
      have hle := coord_le_of_forall₂ hv.fits dim
      rw [Spans, ← hat dim hdim] at hspans
      dsimp only at h
      rw [← hat dim hdim] at h
      by_cases hzero : readAt starts dim = 0
      · rw [if_neg (not_not.mpr hzero), hzero, zero_add, int64_of_lt (by omega) (by omega)] at h
        refine .inr ⟨dim, single, _, _, (some.inj h).symm, hdim, hreads, hvaluesEq ▸ hfound, hspans,
          .inl ⟨hzero, ?_, rfl⟩⟩
        rw [peeledHalf]
        exact if_congr (by simp) rfl rfl
      · rw [if_pos hzero] at h
        refine .inr ⟨dim, single, _, _, (some.inj h).symm, hdim, hreads, hvaluesEq ▸ hfound, hspans,
          .inr ⟨hzero, rfl, ?_⟩⟩
        rw [peeledHalf]
        exact if_congr (not_congr (and_congr_right' hend)) rfl rfl

theorem preserves_concat_iff [Nontrivial α] {dim : Nat} {single : Bool} (hv : Verified shape update indexType starts)
    (h : Peeled starts update shape indexType dim single pre post) :
    Preserves α shape update starts (fun u x => (Replacement.concat dim pre post).eval u x) ↔
      0 ≤ readAt starts dim ∧ readAt starts dim + coord update dim ≤ coord shape dim ∧ (0 ∈ update ∨
        ¬(single = true ∧ (readAt starts dim = 0 ∨ readAt starts dim + coord update dim = coord shape dim))) := by
  have hle := coord_le_of_forall₂ hv.fits dim
  obtain ⟨hzero, rfl, rfl⟩ | ⟨hzero, rfl, rfl⟩ := h.halves
  · rw [peeledHalf]
    split
    · rename_i hsingle
      refine iff_of_true (preserves_pre hv h.dim_lt h.reads hzero) ⟨hzero.ge, by omega, .inr fun hnot => ?_⟩
      rw [hsingle] at hnot
      cases hnot.1
    · rename_i hsingle
      rw [preserves_dropped_iff hv h.dim_lt h.reads hle]
      constructor
      · exact fun hempty => ⟨hzero.ge, by omega, .inl hempty⟩
      · exact fun hkept => hkept.2.2.resolve_right fun hnot => hnot ⟨Bool.not_eq_false _ ▸ hsingle, .inl hzero⟩
  · rw [peeledHalf]
    split
    · rename_i hnot
      rw [preserves_post_iff hv h.dim_lt h.reads]
      constructor
      · rintro ⟨hpos, hend⟩
        exact ⟨hpos, hend, .inr fun hedge => hnot ⟨hedge.1, hedge.2.resolve_left hzero⟩⟩
      · exact fun hkept => ⟨hkept.1, hkept.2.1⟩
    · rename_i hnot
      obtain ⟨hsingle, hend⟩ := not_not.mp hnot
      obtain ⟨start, hstart⟩ := Int.eq_ofNat_of_zero_le (show 0 ≤ readAt starts dim by omega)
      rw [hstart, preserves_dropped_iff hv h.dim_lt h.reads (by omega), ← hstart]
      constructor
      · exact fun hempty => ⟨by omega, hend.le, .inl hempty⟩
      · exact fun hkept => hkept.2.2.resolve_right fun hnot => hnot ⟨hsingle, .inr hend⟩

theorem replacement_preserves_iff [Nontrivial α] (hv : Verified shape update indexType starts)
    (h : DUSToConcat starts update shape indexType = some new) :
    Preserves α shape update starts (fun u x => new.eval u x) ↔ Kept starts update shape := by
  obtain ⟨hshape, rfl, hnone⟩ | ⟨dim, single, pre, post, rfl, hpeeled⟩ := replacement_cases hv h
  · exact iff_of_true (preserves_update hshape) fun d hd single heq => absurd heq (hnone d single hd)
  · rw [preserves_concat_iff hv hpeeled]
    constructor
    · intro h d _ single' heq
      rw [hpeeled.found] at heq
      obtain ⟨hd, rfl⟩ := Prod.mk.inj heq
      cases hd
      exact h
    · exact fun h => h dim hpeeled.dim_lt single hpeeled.found

/-- The update that is left, if the other one is peeled: of the operand of extents `next.1`, at `next.2`. -/
def Reissued (update : List Nat) (indexType : IntType) (next op : List Nat × List StartIndex) : Prop :=
  Verified op.1 update indexType op.2 ∧ ∃ dim pre post dims,
    DUSToConcat op.2 update op.1 indexType = some (.concat dim pre post) ∧
      (pre = .newDus dims next.2 ∨ post = .newDus dims next.2) ∧ next.1 = dims.map SliceDim.size

/-- How often a dimension can be peeled: at the start of the update, and at its end. -/
def weight (update shape : List Nat) (starts : List StartIndex) (d : Nat) : Nat :=
  if readAt starts d = 0 then if coord update d = coord shape d then 0 else 1 else 2

theorem readAt_set (hd : d < starts.length) (e : Nat) :
    readAt (starts.set d (.constant indexType 0)) e = if e = d then 0 else readAt starts e := by
  rw [readAt, startAt]
  split
  · rename_i hed
    rw [hed, getD_eq_getElem _ _ (by rwa [length_set]), getElem_set_self]
    exact Int.zero_bmod
  · rename_i hed
    rw [getD_eq_getElem?_getD, getElem?_set_ne (Ne.symm hed), ← getD_eq_getElem?_getD]
    rfl

theorem weight_lt_of_reissued {next op : List Nat × List StartIndex} (h : Reissued update indexType next op) :
    ∑ d ∈ Finset.range next.1.length, weight update next.1 next.2 d <
      ∑ d ∈ Finset.range op.1.length, weight update op.1 op.2 d := by
  obtain ⟨hv, dim, pre, post, dims, h, hhalf, hnext⟩ := h
  obtain ⟨-, hnew, -⟩ | ⟨dim', single, pre', post', hnew, hpeeled⟩ := replacement_cases hv h
  · cases hnew
  obtain ⟨rfl, rfl, rfl⟩ := Replacement.concat.inj hnew
  have hstarts := hv.length_starts.symm ▸ hpeeled.dim_lt
  -- the other dimensions stay as they are
  have hweight : ∀ n : Nat, weight update (op.1.set dim n) (op.2.set dim (.constant indexType 0)) dim <
      weight update op.1 op.2 dim → ∑ d ∈ Finset.range (op.1.set dim n).length,
        weight update (op.1.set dim n) (op.2.set dim (.constant indexType 0)) d <
          ∑ d ∈ Finset.range op.1.length, weight update op.1 op.2 d := by
    intro n hlt
    rw [length_set]
    refine Finset.sum_lt_sum (fun e _ => ?_) ⟨dim, Finset.mem_range.mpr hpeeled.dim_lt, hlt⟩
    by_cases hed : e = dim
    · rw [hed]
      exact hlt.le
    · rw [weight, weight, readAt_set hstarts, if_neg hed, coord_set_of_ne hed]
  have hsize : ∀ a b : Int, (sliceAlong dim a b op.1).map SliceDim.size = op.1.set dim (b - a).toNat :=
    fun a b => sliceAlong_size
  obtain ⟨hzero, rfl, rfl⟩ | ⟨hzero, rfl, rfl⟩ := hpeeled.halves
  · obtain hhalf | hhalf := hhalf
    · rw [peeledHalf] at hhalf
      split at hhalf
      · obtain ⟨rfl, hnextStarts⟩ := Half.newDus.inj hhalf
        rw [← hnextStarts, hnext, hsize]
        refine hweight _ ?_
        rw [weight, weight, readAt_set hstarts, if_pos rfl, if_pos rfl, if_pos hzero, coord_set_self hpeeled.dim_lt,
          if_pos (by omega), if_neg fun heq => hpeeled.differs ⟨hzero, heq⟩]
        exact zero_lt_one
      · cases hhalf
    · cases hhalf
  · obtain hhalf | hhalf := hhalf
    · cases hhalf
    · rw [peeledHalf] at hhalf
      split at hhalf
      · obtain ⟨rfl, hnextStarts⟩ := Half.newDus.inj hhalf
        rw [← hnextStarts, hnext, hsize]
        refine hweight _ ?_
        rw [weight, weight, readAt_set hstarts, if_pos rfl, if_pos rfl, if_neg hzero]
        split <;> omega
      · cases hhalf

theorem wellFounded_reissued (update : List Nat) (indexType : IntType) : WellFounded (Reissued update indexType) :=
  Subrelation.wf (fun h => weight_lt_of_reissued h)
    (InvImage.wf (fun op : List Nat × List StartIndex => ∑ d ∈ Finset.range op.1.length, weight update op.1 op.2 d)
      Nat.lt_wfRel.wf)

end

/-! ### All three patterns -/

def PadRight (α : Type) (pads : List PadDim) (original update : List Nat) (starts : List StartIndex) : Padded → Prop
  | .failure => True
  | .outside => False
  | .replaced new => PreservesPad α pads original update starts new

section

variable {pads : List PadDim} {original update : List Nat} {indexType : IntType}
  {starts : List StartIndex} {singleUser : Bool}

theorem DUSPad_of_rank_zero (hpads : pads.length = 0) (hstarts : starts.length = 0) :
    DUSPad pads original update indexType starts singleUser = .outside := by
  rw [length_eq_zero_iff] at hpads hstarts
  rw [hpads, hstarts]
  rfl

theorem ne_outside_of_pos (hpos : 0 < starts.length) :
    DUSPad pads original update indexType starts singleUser ≠ .outside := by
  intro h
  rw [DUSPad] at h
  split at h
  · cases h
  split at h
  · cases h
  split at h
  · rename_i hempty
    rw [isEmpty_iff.mp hempty] at hpos
    exact absurd hpos (lt_irrefl 0)
  split at h
  · cases h
  · split_ifs at h

end

/-- The patterns rebuild updates as they are if and only if no sum in the checks of the pad wraps around, the
concatenation ends where the update does, and the dimension that is peeled has the update inside of it. -/
theorem updates_rebuilt_iff (α : Type) [Nontrivial α] (update : List Nat) (indexType : IntType)
    (starts : List StartIndex) :
    (∀ pads original singleUser, pads.length = original.length →
      Verified (edgePadded pads original) update indexType starts →
      (PadRight α pads original update starts (DUSPad pads original update indexType starts singleUser) ↔
        0 < original.length ∧ ∀ new, DUSPad pads original update indexType starts singleUser = .replaced new →
          InsidePad pads original update starts)) ∧
    (∀ shape dim pieces, Verified shape update indexType starts →
      DynamicUpdateToConcat starts update shape = some (dim, pieces) →
      (Preserves α shape update starts (fun u x => concatPieces u x dim pieces) ↔
        readAt starts dim + coord update dim < 2 ^ 63)) ∧
    (∀ shape new, Verified shape update indexType starts → DUSToConcat starts update shape indexType = some new →
      (Preserves α shape update starts (fun u x => new.eval u x) ↔ Kept starts update shape)) ∧
    WellFounded (Reissued update indexType) := by
  refine ⟨fun pads original singleUser hpads hv => ?_, fun shape dim pieces hv h => ?_, fun shape new hv h => ?_,
    wellFounded_reissued update indexType⟩
  · have hlength := length_starts_pad hv hpads
    cases hpad : DUSPad pads original update indexType starts singleUser with
    | failure =>
      refine iff_of_true trivial ⟨Nat.pos_of_ne_zero fun hrank => ?_, fun new hnew => nomatch hnew⟩
      rw [DUSPad_of_rank_zero (hpads.trans hrank) (hlength.trans hrank)] at hpad
      cases hpad
    | outside => exact iff_of_false id fun h => ne_outside_of_pos (hlength.symm ▸ h.1) hpad
    | replaced new =>
      have hf := padFired_of_replaced hpad
      rw [PadRight, preservesPad_iff hv hpads hf]
      constructor
      · rintro h
        refine ⟨hlength ▸ hf.rank, fun new' hnew => h⟩
      · exact fun h => h.2 new rfl
  · exact preservesConcat_iff hv (concatFired_of_eq_some hv.length_starts h)
  · exact replacement_preserves_iff hv h

def at64 (start : Int) : List StartIndex := [.constant ⟨64, false⟩ start]

theorem verified_at64 {n k : Nat} {start : Int} (hk : k ≤ n) (hn : n < 2 ^ 63)
    (hstart : IntType.wrap ⟨64, false⟩ start = start) : Verified [n] [k] ⟨64, false⟩ (at64 start) := by
  refine ⟨rfl, .cons hk .nil, fun type m hmem => ?_, le_rfl, fun m hm => mem_singleton.mp hm ▸ hn⟩
  obtain ⟨rfl, rfl⟩ := StartIndex.constant.inj (mem_singleton.mp hmem)
  exact ⟨rfl, hstart⟩

theorem updates_rebuilt_one : (∃ new, DUSPad [⟨1, 1, 0⟩] [4] [2] ⟨64, false⟩ (at64 2) true = .replaced new ∧
      PreservesPad Int [⟨1, 1, 0⟩] [4] [2] (at64 2) new) ∧
    (∃ pieces, DynamicUpdateToConcat (at64 1) [2] [4] = some (0, pieces) ∧
      Preserves Int [4] [2] (at64 1) fun u x => concatPieces u x 0 pieces) ∧
    ∃ new, DUSToConcat (at64 1) [2] [4] ⟨64, false⟩ = some new ∧
      Preserves Int [4] [2] (at64 1) fun u x => new.eval u x := by
  have hpad := ((updates_rebuilt_iff Int [2] ⟨64, false⟩ (at64 2)).1 [⟨1, 1, 0⟩] [4] true rfl
    (verified_at64 (by decide) (by decide) (by decide))).mpr ⟨by decide, fun _ _ => by decide⟩
  obtain ⟨-, hconcat, hpeel, -⟩ := updates_rebuilt_iff Int [2] ⟨64, false⟩ (at64 1)
  have hv : Verified [4] [2] ⟨64, false⟩ (at64 1) := verified_at64 (by decide) (by decide) (by decide)
  exact ⟨⟨_, rfl, hpad⟩, ⟨_, rfl, (hconcat _ _ _ hv rfl).mpr (by decide)⟩, ⟨_, rfl, (hpeel _ _ hv rfl).mpr (by decide)⟩⟩

/-- An update at the start of the only dimension that it differs in is dropped. -/
theorem update_dropped : ∃ new, DUSToConcat (at64 0) [2] [4] ⟨64, false⟩ = some new ∧
    ¬Preserves Int [4] [2] (at64 0) fun u x => new.eval u x := by
  have hv : Verified [4] [2] ⟨64, false⟩ (at64 0) := verified_at64 (by decide) (by decide) (by decide)
  refine ⟨_, rfl, fun h => ?_⟩
  exact absurd ((replacement_preserves_iff hv rfl).mp h) (by decide)

end EnzymeJax.RebuiltUpdates
