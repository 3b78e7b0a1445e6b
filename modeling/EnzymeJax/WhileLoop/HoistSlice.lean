import EnzymeJax.Library.IntType
import EnzymeJax.Library.SliceLine
import EnzymeJax.WhileLoopInfo

/-!
# Slices hoisted out of a loop

A `dynamic_slice` of extent 1 in a dimension, at an index affine in the induction variable, is replaced by one slice
before the loop. It covers the indices up to that of `limit - 1`, which need not be the induction value of an
iteration. The `i64` arithmetic on the bounds does not overflow, so they are integers here.
-/

namespace EnzymeJax

open Tensor List
open Option hiding guard

/-- A value that is `scale * iv + offset`. -/
structure AffineIndexInfo where
  scale : Int
  offset : Int

namespace HoistSlice

/-- What is known of a `dynamic_slice`: values that are the start indices, and the extents. -/
structure SliceOp (V : Type) where
  startIndices : List V
  sliceSizes : List Nat

variable {V : Type} (info : WhileLoopInfo) (affineIndexInfo : V → Option AffineIndexInfo)

def canHoistOperationFromLoop (sliceOp : SliceOp V) (dimensions : List Nat) : Bool :=
  info.isConstant && dimensions.all fun dim =>
    (sliceOp.startIndices[dim]?.bind affineIndexInfo).isSome

/-- The value of a constant of the type that is made from an integer. -/
def makeAttr (type : IntType) (n : Int) : Int := type.wrap n

/-- The result for the operand, where `outer` are the values that the start indices in the other dimensions
have outside of the loop. -/
def hoistOperationFromLoop {α : Type} (typeOf : V → IntType) (outer : V → Int) (sliceOp : SliceOp V)
    (sliceIndex : Nat) (operand : Tensor α) : Option (Tensor α) := do
  guard (canHoistOperationFromLoop info affineIndexInfo sliceOp [sliceIndex])
  let depIndex ← sliceOp.startIndices[sliceIndex]?
  let indexInfo ← affineIndexInfo depIndex
  let scale := indexInfo.scale
  let offset := indexInfo.offset
  let step := info.step
  let lb := info.start
  let ub := info.limit
  let rawMin := scale * lb + offset
  let rawMax := scale * (ub - 1) + offset
  let actualMin := min rawMin rawMax
  let actualMax := max rawMin rawMax
  let actualSize := actualMax - actualMin + 1
  let idxMinConst := makeAttr (typeOf depIndex) actualMin
  let dSliceStarts := (sliceOp.startIndices.map outer).set sliceIndex idxMinConst
  let dSliceSizes := sliceOp.sliceSizes.set sliceIndex actualSize.toNat
  guard (∀ i < operand.shape.length, coord dSliceSizes i ≤ coord operand.shape i)
  let dSlice ← dynamicSlice dSliceStarts dSliceSizes operand
  let result ← slice (stridedAlong sliceIndex (|scale| * step) dSlice.shape) dSlice
  return if scale < 0 then reverse [sliceIndex] result else result

section

variable {ρ σ : Type} (op : WhileOp ρ σ) (refs : ρ) (init : σ)

/-- Iteration `k` is executed. -/
def Executed (k : Nat) : Prop := (op.entering refs init k).1 < op.info.limit

/-- The `dynamic_slice` in iteration `k`, in which `env k` are the values. -/
def original {α : Type} (env : Nat → V → Int) (sliceOp : SliceOp V) (operand : Tensor α) (k : Nat) :
    Option (Tensor α) :=
  dynamicSlice (sliceOp.startIndices.map (env k)) sliceOp.sliceSizes operand

/-- The values that the start indices have in the iterations: along the dimension the index is affine, of
its type and in bounds, and the others are invariant. -/
structure InLoop (typeOf : V → IntType) (outer : V → Int) (env : Nat → V → Int) (sliceOp : SliceOp V)
    (sliceIndex : Nat) (depIndex : V) (indexInfo : AffineIndexInfo) (dim : Nat) : Prop where
  affine : ∀ k, Executed op refs init k →
    env k depIndex = indexInfo.scale * (op.entering refs init k).1 + indexInfo.offset
  typed : ∀ k, Executed op refs init k → (typeOf depIndex).wrap (env k depIndex) = env k depIndex
  inBounds : ∀ k, Executed op refs init k → 0 ≤ env k depIndex ∧ env k depIndex < dim
  invariant : ∀ k, Executed op refs init k → ∀ i v, i ≠ sliceIndex →
    sliceOp.startIndices[i]? = some v → env k v = outer v

/-- The hoisted slice has as many entries as the loop has iterations, and each is the slice of its
iteration. -/
def Preserves (α : Type) (typeOf : V → IntType) (outer : V → Int) (env : Nat → V → Int)
    (sliceOp : SliceOp V) (sliceIndex : Nat) (shape : List Nat) : Prop :=
  ∀ operand result : Tensor α, operand.shape = shape →
    hoistOperationFromLoop op.info affineIndexInfo typeOf outer sliceOp sliceIndex operand = some result →
      ∃ n, op.TripCount refs init n ∧ result.shape = sliceOp.sliceSizes.set sliceIndex n ∧
        ∀ k < n, ∃ z, original env sliceOp operand k = some z ∧
          ∀ idx ∈ indices z.shape, result.get (idx.set sliceIndex k) = z.get idx

end

/-- The covering slice does not fit, or else the loop is entered and, unless the slices are empty, it starts at the
smallest index of all iterations: for a positive scale it ends within the operand, and for a negative one the last
iteration is that of `limit - 1`, or it is clamped so. -/
def HoldsWhen (type : IntType) (indexInfo : AffineIndexInfo) (sliceSizes : List Nat) (sliceIndex : Nat)
    (shape : List Nat) : Prop :=
  let dim := coord shape sliceIndex
  let span := info.limit - 1 - info.start
  let last := indexInfo.scale * (info.limit - 1) + indexInfo.offset
  dim < |indexInfo.scale| * |span| + 1 ∨ info.start < info.limit ∧
      ((∃ e < shape.length, e ≠ sliceIndex ∧ coord sliceSizes e = 0) ∨ (0 < indexInfo.scale ∧ last < dim) ∨
        (indexInfo.scale < 0 ∧ (info.step ∣ span ∨
          (clampStart dim (|indexInfo.scale| * span + 1).toNat (type.wrap last) : Int) =
            last - indexInfo.scale * (span % info.step))))

/-! ### The hoisted slice -/

def coveringSize (scale : Int) : Int := |scale| * |info.limit - 1 - info.start| + 1

def numEntries : Nat := (|info.limit - 1 - info.start| / info.step).toNat + 1

def entryIndex (scale : Int) (k : Nat) : Nat :=
  ((if scale < 0 then numEntries info - 1 - k else k : Nat) * (|scale| * info.step)).toNat

/-- The index that the covering slice starts at. -/
def actualMin (indexInfo : AffineIndexInfo) : Int :=
  min (indexInfo.scale * info.start + indexInfo.offset)
    (indexInfo.scale * (info.limit - 1) + indexInfo.offset)

theorem coveringSize_pos (scale : Int) : 0 < coveringSize info scale := by
  have hmul := mul_nonneg (abs_nonneg scale) (abs_nonneg (info.limit - 1 - info.start))
  rw [coveringSize]
  omega

theorem actualSize_eq (indexInfo : AffineIndexInfo) :
    max (indexInfo.scale * info.start + indexInfo.offset)
      (indexInfo.scale * (info.limit - 1) + indexInfo.offset) - actualMin info indexInfo + 1 =
        coveringSize info indexInfo.scale := by
  rw [actualMin, max_sub_min_eq_abs', coveringSize, ← abs_mul, abs_sub_comm]
  ring_nf

section

variable {info affineIndexInfo} {α : Type} {sliceOp : SliceOp V} {d : Nat} {depIndex : V}
  {indexInfo : AffineIndexInfo} {shape : List Nat}

theorem stridedSize_coveringSize {scale : Int} (hscale : scale ≠ 0) (hstep : 0 < info.step) :
    stridedSize (coveringSize info scale).toNat (|scale| * info.step) = numEntries info :=
  stridedSize_mul (abs_pos.mpr hscale) (abs_nonneg _) hstep

theorem hoistOperationFromLoop_eq (typeOf : V → IntType) (outer : V → Int) (hconst : info.isConstant = true)
    (hstep : 0 < info.step) (hdep : sliceOp.startIndices[d]? = some depIndex)
    (hinfo : affineIndexInfo depIndex = some indexInfo) (hscale : indexInfo.scale ≠ 0)
    (hok : DynamicSliceOk shape sliceOp.sliceSizes sliceOp.startIndices.length) {x : Tensor α} (hx : x.shape = shape) :
    ((coord shape d : Int) < coveringSize info indexInfo.scale ∧
      hoistOperationFromLoop info affineIndexInfo typeOf outer sliceOp d x = none) ∨
    (coveringSize info indexInfo.scale ≤ coord shape d ∧
      ∃ y, hoistOperationFromLoop info affineIndexInfo typeOf outer sliceOp d x = some y ∧
        Along d sliceOp.sliceSizes (numEntries info) (fun idx k =>
          sliceLine d sliceOp.sliceSizes (sliceOp.startIndices.map outer) x
            (clampStart (coord shape d) (coveringSize info indexInfo.scale).toNat
              (makeAttr (typeOf depIndex) (actualMin info indexInfo))) idx
            (entryIndex info indexInfo.scale k)) y) := by
  subst hx
  obtain ⟨hrank, hfit⟩ := hok
  have hsizes : sliceOp.sliceSizes.length = x.shape.length := hfit.length_eq
  have hss : (sliceOp.startIndices.map outer).length = x.shape.length := by rw [length_map, hrank]
  have hd : d < x.shape.length := hrank ▸ (List.getElem?_eq_some_iff.mp hdep).1
  have hd' : d < sliceOp.sliceSizes.length := hsizes.symm ▸ hd
  have hle : ∀ e < x.shape.length, e ≠ d → coord sliceOp.sliceSizes e ≤ coord x.shape e := by
    intro e he _
    rw [coord_eq_getElem he, coord_eq_getElem (hsizes.symm ▸ he)]
    exact (forall₂_iff_get.mp hfit).2 e (hsizes.symm ▸ he) he
  have hpos := coveringSize_pos info indexInfo.scale
  have hcan : canHoistOperationFromLoop info affineIndexInfo sliceOp [d] = true := by
    rw [canHoistOperationFromLoop, hconst, all_cons, hdep, bind_some, hinfo]
    rfl
  have hguard : (∀ i < x.shape.length, coord (sliceOp.sliceSizes.set d
      (coveringSize info indexInfo.scale).toNat) i ≤ coord x.shape i) ↔
        coveringSize info indexInfo.scale ≤ coord x.shape d := by
    constructor
    · intro h
      have h := h d hd
      rw [coord_set_self hd'] at h
      omega
    · intro h e he
      by_cases hed : e = d
      · subst hed
        rw [coord_set_self hd']
        omega
      · rw [coord_set_of_ne hed]
        exact hle e he hed
  have hmin : min (indexInfo.scale * info.start + indexInfo.offset)
      (indexInfo.scale * (info.limit - 1) + indexInfo.offset) = actualMin info indexInfo := rfl
  rw [hoistOperationFromLoop]
  simp only [hcan, hdep, hinfo, bind_eq_bind, bind_some, Option.pure_def, hmin, actualSize_eq]
  by_cases hroom : coveringSize info indexInfo.scale ≤ coord x.shape d
  · right
    refine ⟨hroom, ?_⟩
    obtain ⟨y, hy, hline⟩ := Along.dynamicSlice
      (a := makeAttr (typeOf depIndex) (actualMin info indexInfo))
      (m := (coveringSize info indexInfo.scale).toNat) hd hsizes hss hle (by omega)
    have hstride : 0 < |indexInfo.scale| * info.step := mul_pos (abs_pos.mpr hscale) hstep
    obtain ⟨z, hz, hgrid⟩ := hline.strided hd' hstride
    rw [stridedSize_coveringSize hscale hstep] at hgrid
    refine ⟨if indexInfo.scale < 0 then reverse [d] z else z, ?_, ?_⟩
    · simp only [guard, if_true, if_pos (hguard.mpr hroom), Option.pure_def, bind_some, hy, hz]
    · by_cases hneg : indexInfo.scale < 0
      · simp only [entryIndex, if_pos hneg]
        exact hgrid.reverse hd'
      · simp only [entryIndex, if_neg hneg]
        exact hgrid
  · left
    refine ⟨not_le.mp hroom, ?_⟩
    simp only [guard, if_true, if_neg (hguard.not.mpr hroom), Option.pure_def, bind_some]
    rfl

end

/-! ### The slices of the iterations -/

section

variable {info affineIndexInfo} {α ρ σ : Type} {op : WhileOp ρ σ} {refs : ρ} {init : σ}
  {typeOf : V → IntType} {outer : V → Int} {env : Nat → V → Int} {sliceOp : SliceOp V} {d : Nat}
  {depIndex : V} {indexInfo : AffineIndexInfo} {shape : List Nat}

theorem original_eq (hdep : sliceOp.startIndices[d]? = some depIndex)
    (hok : DynamicSliceOk shape sliceOp.sliceSizes sliceOp.startIndices.length)
    (hsize : sliceOp.sliceSizes[d]? = some 1)
    (hloop : InLoop op refs init typeOf outer env sliceOp d depIndex indexInfo (coord shape d))
    {k : Nat} (hk : Executed op refs init k) {x : Tensor α} (hx : x.shape = shape) :
    ∃ z, original env sliceOp x k = some z ∧ Along d sliceOp.sliceSizes 1
      (sliceLine d sliceOp.sliceSizes (sliceOp.startIndices.map outer) x (env k depIndex).toNat) z := by
  subst hx
  obtain ⟨hrank, hfit⟩ := hok
  have hsizes : sliceOp.sliceSizes.length = x.shape.length := hfit.length_eq
  have hss : (sliceOp.startIndices.map outer).length = x.shape.length := by rw [length_map, hrank]
  have hd : d < x.shape.length := hrank ▸ (List.getElem?_eq_some_iff.mp hdep).1
  obtain ⟨hd', hone⟩ := List.getElem?_eq_some_iff.mp hsize
  obtain ⟨hlow, hhigh⟩ := hloop.inBounds k hk
  have hle : ∀ e < x.shape.length, e ≠ d → coord sliceOp.sliceSizes e ≤ coord x.shape e := by
    intro e he _
    rw [coord_eq_getElem he, coord_eq_getElem (hsizes.symm ▸ he)]
    exact (forall₂_iff_get.mp hfit).2 e (hsizes.symm ▸ he) he
  have hstarts : sliceOp.startIndices.map (env k) = (sliceOp.startIndices.map outer).set d (env k depIndex) := by
    refine ext_getElem (by simp) fun i hi hi' => ?_
    rw [length_map] at hi
    rw [getElem_map, getElem_set, getElem_map]
    split
    · rename_i hdi
      subst hdi
      rw [(List.getElem?_eq_some_iff.mp hdep).2]
    · rename_i hdi
      exact hloop.invariant k hk i _ (Ne.symm hdi) (getElem?_eq_getElem hi)
  have hset : sliceOp.sliceSizes = sliceOp.sliceSizes.set d 1 := by
    rw [← hone, set_getElem_self]
  have hclamp : clampStart (coord x.shape d) 1 (env k depIndex) = (env k depIndex).toNat := by
    rw [clampStart]
    omega
  obtain ⟨z, hz, hline⟩ := Along.dynamicSlice (a := env k depIndex) (m := 1) hd hsizes hss hle (by omega)
  rw [← hstarts, ← hset] at hz
  rw [hclamp] at hline
  exact ⟨z, hz, hline⟩

/-- The slices are kept if and only if there is nothing hoisted or there are as many entries as iterations and they
are the same elements. -/
theorem preserves_iff_entries [Nontrivial α] (hconst : op.info.isConstant = true) (hstep : 0 < op.info.step)
    (hdep : sliceOp.startIndices[d]? = some depIndex) (hinfo : affineIndexInfo depIndex = some indexInfo)
    (hscale : indexInfo.scale ≠ 0) (hok : DynamicSliceOk shape sliceOp.sliceSizes sliceOp.startIndices.length)
    (hsize : sliceOp.sliceSizes[d]? = some 1)
    (hloop : InLoop op refs init typeOf outer env sliceOp d depIndex indexInfo (coord shape d)) :
    Preserves affineIndexInfo op refs init α typeOf outer env sliceOp d shape ↔
      (coord shape d : Int) < coveringSize op.info indexInfo.scale ∨
        op.TripCount refs init (numEntries op.info) ∧ ∀ k < numEntries op.info,
          (∃ e < shape.length, e ≠ d ∧ coord sliceOp.sliceSizes e = 0) ∨
            clampStart (coord shape d) (coveringSize op.info indexInfo.scale).toNat
                (makeAttr (typeOf depIndex) (actualMin op.info indexInfo)) +
              entryIndex op.info indexInfo.scale k = (env k depIndex).toNat := by
  have hsizes : sliceOp.sliceSizes.length = shape.length := hok.2.length_eq
  have hss : (sliceOp.startIndices.map outer).length = shape.length := by rw [length_map, hok.1]
  have hd : d < shape.length := hok.1 ▸ (List.getElem?_eq_some_iff.mp hdep).1
  have hd' : d < sliceOp.sliceSizes.length := hsizes.symm ▸ hd
  have hhoist := fun (x : Tensor α) (hx : x.shape = shape) =>
    hoistOperationFromLoop_eq typeOf outer hconst hstep hdep hinfo hscale hok hx
  constructor
  · intro h
    by_cases hroom : (coord shape d : Int) < coveringSize op.info indexInfo.scale
    · exact .inl hroom
    right
    have hentry : ∀ x : Tensor α, x.shape = shape → op.TripCount refs init (numEntries op.info) ∧
        ∀ k < numEntries op.info, ∀ idx ∈ indices (sliceOp.sliceSizes.set d 1),
          sliceLine d sliceOp.sliceSizes (sliceOp.startIndices.map outer) x
            (clampStart (coord shape d) (coveringSize op.info indexInfo.scale).toNat
              (makeAttr (typeOf depIndex) (actualMin op.info indexInfo))) idx
            (entryIndex op.info indexInfo.scale k) =
          sliceLine d sliceOp.sliceSizes (sliceOp.startIndices.map outer) x (env k depIndex).toNat
            idx 0 := by
      intro x hx
      obtain ⟨y, hy, hline⟩ := ((hhoist x hx).resolve_left fun hnone => hroom hnone.1).2
      obtain ⟨n, hcount, hshape, hslices⟩ := h x y hx hy
      have hn : numEntries op.info = n := by
        have hcoord := congrArg (coord · d) (hline.shape_eq.symm.trans hshape)
        simpa only [coord_set_self hd'] using hcoord
      subst hn
      refine ⟨hcount, fun k hk idx hidx => ?_⟩
      obtain ⟨z, hz, hone⟩ := original_eq hdep hok hsize hloop (hcount.1 k hk) hx
      obtain ⟨z', hz', hget⟩ := hslices k hk
      cases hz.symm.trans hz'
      have hentry := hget idx (hone.shape_eq ▸ hidx)
      rwa [hline.get_eq idx hidx k hk, hone.get_of_one hd' hidx] at hentry
    obtain ⟨p, -, -⟩ := exists_pair_ne α
    refine ⟨(hentry (splat shape p) rfl).1, fun k hk => ?_⟩
    exact (sliceLine_eq_iff hd hsizes hss).mp fun x hx idx hidx => (hentry x hx).2 k hk idx hidx
  · intro h x y hx hy
    obtain ⟨-, hnone⟩ | ⟨hroom, y', hy', hline⟩ := hhoist x hx
    · rw [hnone] at hy
      cases hy
    · cases hy'.symm.trans hy
      obtain ⟨hcount, hentries⟩ := h.resolve_left (not_lt.mpr hroom)
      refine ⟨_, hcount, hline.shape_eq, fun k hk => ?_⟩
      obtain ⟨z, hz, hone⟩ := original_eq hdep hok hsize hloop (hcount.1 k hk) hx
      refine ⟨z, hz, fun idx hidx => ?_⟩
      rw [hone.shape_eq] at hidx
      rw [hline.get_eq idx hidx k hk, hone.get_of_one hd' hidx]
      refine (sliceLine_eq_iff hd hsizes hss).mpr ((hentries k hk).imp_right fun heq => ?_) x hx idx hidx
      rw [heq, add_zero]

/-! ### The entries and the iterations -/

/-- The iteration with the smallest index. -/
def smallestIteration (info : WhileLoopInfo) (scale : Int) : Nat :=
  if scale < 0 then numEntries info - 1 else 0

theorem smallestIteration_lt (info : WhileLoopInfo) (scale : Int) :
    smallestIteration info scale < numEntries info := by
  rw [smallestIteration, numEntries]
  split
  · omega
  · omega

theorem tripCount_numEntries_iff (hstep : 0 < op.info.step) :
    op.TripCount refs init (numEntries op.info) ↔ op.info.start < op.info.limit := by
  rw [op.tripCount_iff]
  constructor
  · intro ⟨hbelow, _⟩
    have hfirst := hbelow 0 (Nat.succ_pos _)
    rwa [Nat.cast_zero, zero_mul, add_zero] at hfirst
  · intro hlt
    have hspan : 0 ≤ op.info.limit - 1 - op.info.start := by omega
    have hquot := Int.ediv_nonneg hspan hstep.le
    have hcount : (numEntries op.info : Int) = (op.info.limit - 1 - op.info.start) / op.info.step + 1 := by
      rw [numEntries, abs_of_nonneg hspan]
      omega
    constructor
    · intro k hk
      have hle : (k : Int) ≤ (op.info.limit - 1 - op.info.start) / op.info.step := by omega
      have hmul := Int.mul_le_of_le_ediv hstep hle
      omega
    · have hmul := Int.lt_ediv_add_one_mul_self (op.info.limit - 1 - op.info.start) hstep
      rw [hcount]
      omega

theorem toNat_index_eq (hstep : 0 < op.info.step)
    (hloop : InLoop op refs init typeOf outer env sliceOp d depIndex indexInfo (coord shape d))
    (hcount : op.TripCount refs init (numEntries op.info)) {k : Nat} (hk : k < numEntries op.info) :
    (env k depIndex).toNat = (env (smallestIteration op.info indexInfo.scale) depIndex).toNat +
        entryIndex op.info indexInfo.scale k := by
  have hsmallest := smallestIteration_lt op.info indexInfo.scale
  have hlow := (hloop.inBounds _ (hcount.1 _ hsmallest)).1
  have hlow' := (hloop.inBounds k (hcount.1 k hk)).1
  have haffine := hloop.affine _ (hcount.1 _ hsmallest)
  have haffine' := hloop.affine k (hcount.1 k hk)
  rw [op.entering_fst] at haffine haffine'
  have hentry : 0 ≤ |indexInfo.scale| * op.info.step := mul_nonneg (abs_nonneg _) hstep.le
  rw [entryIndex]
  rw [smallestIteration] at hlow haffine ⊢
  by_cases hneg : indexInfo.scale < 0
  · rw [if_pos hneg] at hlow haffine ⊢
    rw [if_pos hneg]
    have hdist : env k depIndex = env (numEntries op.info - 1) depIndex +
        (numEntries op.info - 1 - k : Nat) * (|indexInfo.scale| * op.info.step) := by
      rw [haffine, haffine', abs_of_neg hneg, Nat.cast_sub (by omega : k ≤ numEntries op.info - 1)]
      ring
    have hnonneg := mul_nonneg (Int.natCast_nonneg (numEntries op.info - 1 - k)) hentry
    omega
  · rw [if_neg hneg] at hlow haffine ⊢
    rw [if_neg hneg]
    have hdist : env k depIndex = env 0 depIndex + k * (|indexInfo.scale| * op.info.step) := by
      rw [haffine, haffine', abs_of_nonneg (not_lt.mp hneg)]
      push_cast
      ring
    have hnonneg := mul_nonneg (Int.natCast_nonneg k) hentry
    omega

/-- The covering slice starts at the smallest index. -/
theorem clampStart_eq_smallest_iff (hstep : 0 < op.info.step) (hscale : indexInfo.scale ≠ 0)
    (hloop : InLoop op refs init typeOf outer env sliceOp d depIndex indexInfo (coord shape d))
    (hlt : op.info.start < op.info.limit) (hroom : coveringSize op.info indexInfo.scale ≤ coord shape d) :
    clampStart (coord shape d) (coveringSize op.info indexInfo.scale).toNat
        (makeAttr (typeOf depIndex) (actualMin op.info indexInfo)) =
      (env (smallestIteration op.info indexInfo.scale) depIndex).toNat ↔
    0 < indexInfo.scale ∧ indexInfo.scale * (op.info.limit - 1) + indexInfo.offset < coord shape d ∨
      indexInfo.scale < 0 ∧ (op.info.step ∣ op.info.limit - 1 - op.info.start ∨
        (clampStart (coord shape d) (|indexInfo.scale| * (op.info.limit - 1 - op.info.start) + 1).toNat
          ((typeOf depIndex).wrap (indexInfo.scale * (op.info.limit - 1) + indexInfo.offset)) : Int) =
            indexInfo.scale * (op.info.limit - 1) + indexInfo.offset -
              indexInfo.scale * ((op.info.limit - 1 - op.info.start) % op.info.step)) := by
  have hcount : op.TripCount refs init (numEntries op.info) := (tripCount_numEntries_iff hstep).mpr hlt
  have hsmallest := smallestIteration_lt op.info indexInfo.scale
  obtain ⟨hlow, hhigh⟩ := hloop.inBounds _ (hcount.1 _ hsmallest)
  have haffine := hloop.affine _ (hcount.1 _ hsmallest)
  have htyped := hloop.typed _ (hcount.1 _ hsmallest)
  rw [op.entering_fst] at haffine
  have hspan : 0 ≤ op.info.limit - 1 - op.info.start := by omega
  have hpos := coveringSize_pos op.info indexInfo.scale
  rw [coveringSize, abs_of_nonneg hspan] at hroom hpos ⊢
  rw [makeAttr, actualMin]
  rcases lt_or_gt_of_ne hscale with hneg | hpositive
  · have hquot := Int.ediv_nonneg hspan hstep.le
    have hiteration : (smallestIteration op.info indexInfo.scale : Int) =
        (op.info.limit - 1 - op.info.start) / op.info.step := by
      rw [smallestIteration, if_pos hneg, numEntries, abs_of_nonneg hspan]
      omega
    have hindex : env (smallestIteration op.info indexInfo.scale) depIndex =
        indexInfo.scale * (op.info.limit - 1) + indexInfo.offset -
          indexInfo.scale * ((op.info.limit - 1 - op.info.start) % op.info.step) := by
      rw [haffine, hiteration, Int.emod_def]
      ring
    have hmin : min (indexInfo.scale * op.info.start + indexInfo.offset)
        (indexInfo.scale * (op.info.limit - 1) + indexInfo.offset) =
          indexInfo.scale * (op.info.limit - 1) + indexInfo.offset := by
      have hmul := mul_le_mul_of_nonpos_left (by omega : op.info.start ≤ op.info.limit - 1) hneg.le
      omega
    rw [hmin, ← hindex]
    constructor
    · intro h
      refine .inr ⟨hneg, .inr ?_⟩
      omega
    · rintro (⟨hpositive, -⟩ | ⟨-, hdvd | heq⟩)
      · omega
      · -- The last iteration is the one whose induction value is `limit - 1`.
        have hlast : env (smallestIteration op.info indexInfo.scale) depIndex =
            indexInfo.scale * (op.info.limit - 1) + indexInfo.offset := by
          rw [hindex, Int.emod_eq_zero_of_dvd hdvd, mul_zero, Int.sub_zero]
        obtain ⟨-, hfirst⟩ := hloop.inBounds 0 (hcount.1 0 (Nat.succ_pos _))
        rw [hloop.affine 0 (hcount.1 0 (Nat.succ_pos _)), op.entering_fst, Nat.cast_zero, zero_mul, add_zero] at hfirst
        have hend : env (smallestIteration op.info indexInfo.scale) depIndex +
            (|indexInfo.scale| * (op.info.limit - 1 - op.info.start) + 1) =
              indexInfo.scale * op.info.start + indexInfo.offset + 1 := by
          rw [hlast, abs_of_neg hneg]
          ring
        rw [← hlast, htyped, clampStart]
        omega
      · omega
  · have hiteration : smallestIteration op.info indexInfo.scale = 0 := by
      rw [smallestIteration, if_neg (by omega)]
    rw [hiteration] at haffine htyped hlow hhigh ⊢
    rw [Nat.cast_zero, zero_mul, add_zero] at haffine
    have hmin : min (indexInfo.scale * op.info.start + indexInfo.offset)
        (indexInfo.scale * (op.info.limit - 1) + indexInfo.offset) = env 0 depIndex := by
      have hmul := mul_le_mul_of_nonneg_left (by omega : op.info.start ≤ op.info.limit - 1) hpositive.le
      omega
    have hend : env 0 depIndex + (|indexInfo.scale| * (op.info.limit - 1 - op.info.start) + 1) =
        indexInfo.scale * (op.info.limit - 1) + indexInfo.offset + 1 := by
      rw [haffine, abs_of_pos hpositive]
      ring
    rw [hmin, htyped, clampStart]
    constructor
    · intro h
      exact .inl ⟨hpositive, by omega⟩
    · rintro (⟨-, hlast⟩ | ⟨hneg, -⟩)
      · omega
      · omega

end

/-! ### Slices of a vector -/

/-- A loop that carries only the induction variable. -/
def countedLoop (start limit step : Int) : WhileOp Unit Unit :=
  ⟨⟨start, limit, step, true⟩, fun _ _ s => s⟩

def element : SliceOp Unit := ⟨[()], [1]⟩

def i64 (_ : Unit) : IntType := ⟨64, false⟩

/-- The indices in a loop that starts at zero. -/
def indexIn (step scale offset : Int) (k : Nat) (_ : Unit) : Int := scale * (0 + k * step) + offset

theorem inLoop_element {limit step scale offset : Int} {dim n : Nat}
    (hn : (countedLoop 0 limit step).TripCount () () n) (hstep : 0 < step)
    (hindex : ∀ k < n, (i64 ()).wrap (indexIn step scale offset k ()) = indexIn step scale offset k () ∧
      0 ≤ indexIn step scale offset k () ∧ indexIn step scale offset k () < dim) :
    InLoop (countedLoop 0 limit step) () () i64 (fun _ => 0) (indexIn step scale offset) element 0 ()
      ⟨scale, offset⟩ dim := by
  have hlt : ∀ k, Executed (countedLoop 0 limit step) () () k → k < n := by
    intro k hk
    by_contra hle
    have hend := ((countedLoop 0 limit step).tripCount_iff () ()).mp hn
    have hmul : (n : Int) * step ≤ k * step := mul_le_mul_of_nonneg_right (by omega) hstep.le
    rw [Executed, WhileOp.entering_fst] at hk
    exact absurd hk (not_lt.mpr (hend.2.trans (Int.add_le_add_left hmul 0)))
  refine ⟨fun k _ => ?_, fun k hk => (hindex k (hlt k hk)).1, fun k hk => (hindex k (hlt k hk)).2,
    fun k _ i v hi hv => ?_⟩
  · rw [WhileOp.entering_fst]
    rfl
  · cases i with
    | zero => exact absurd rfl hi
    | succ i => cases hv

end HoistSlice

end EnzymeJax
