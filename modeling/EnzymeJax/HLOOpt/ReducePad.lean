import EnzymeJax.Library.Reduce

/-!
# Reductions of padded operands

The operand is reduced without its padding, what the padding contributes is added to each element of the result,
and the padding of the dimensions that are kept is put around it.
-/

namespace EnzymeJax.PaddedReduce

open Tensor List Option

/-! ### The pattern -/

inductive ReduceOpKind
  | add
  | min
  | max
  | mul

namespace ReduceOpKind

def op : ReduceOpKind → Int → Int → Int
  | add, a, b => a + b
  | min, a, b => Min.min a b
  | max, a, b => Max.max a b
  | mul, a, b => a * b

instance (kind : ReduceOpKind) : Std.Commutative kind.op := by
  refine ⟨fun a b => ?_⟩
  cases kind with
  | add => exact add_comm a b
  | min => exact min_comm a b
  | max => exact max_comm a b
  | mul => exact mul_comm a b

instance (kind : ReduceOpKind) : Std.Associative kind.op := by
  refine ⟨fun a b c => ?_⟩
  cases kind with
  | add => exact add_assoc a b c
  | min => exact min_assoc a b c
  | max => exact max_assoc a b c
  | mul => exact mul_assoc a b c

end ReduceOpKind

/-- A `reduce` of one operand, which is a `pad`. -/
structure ReduceOp where
  kind : ReduceOpKind
  dimensions : List Nat
  initValue : Int
  pad : List PadDim
  paddingValue : Int
  /-- The padding value is a constant of the program. -/
  isConstant : Bool

def anyPadSizesNegative (pad : List PadDim) : Bool :=
  pad.any fun d => d.low < 0 ∨ d.high < 0 ∨ d.interior < 0

structure PostReduceInfo where
  pad : List PadDim
  needsPostPad : Bool
  numElementsReduced : Int

/-- One dimension of the operand of the `pad`. Its extent less one is cast to `int32_t`. -/
def PostReduceInfo.addDim (dimensions : List Nat) (info : PostReduceInfo) (en : (PadDim × Nat) × Nat) :
    PostReduceInfo :=
  let ((d, value), index) := en
  if index ∈ dimensions then
    { info with numElementsReduced := info.numElementsReduced +
        (d.low + d.high + max (((value : Int) - 1).bmod (2 ^ 32)) 0 * d.interior) }
  else { info with pad := info.pad ++ [d], needsPostPad := true }

def postReduceInfo (op : ReduceOp) (shape : List Nat) : PostReduceInfo :=
  (List.zip op.pad shape).zipIdx.foldl (PostReduceInfo.addDim op.dimensions) ⟨[], false, 0⟩

/-- What is made of an element of the reduction of the operand without its padding. -/
def addPadding (op : ReduceOp) (numElementsReduced res : Int) : Int :=
  match op.kind with
  | .add =>
    if op.isConstant ∧ op.paddingValue = 0 then res else res + op.paddingValue * numElementsReduced
  | .min => min res op.paddingValue
  | .max => max res op.paddingValue
  | .mul => res * op.paddingValue ^ numElementsReduced.toNat

def original (op : ReduceOp) (x : Tensor Int) : Option (Tensor Int) :=
  (pad op.pad op.paddingValue x).bind (reduce op.kind.op op.initValue op.dimensions)

def rewritten (op : ReduceOp) (x : Tensor Int) : Option (Tensor Int) :=
  let reduceInfo := postReduceInfo op x.shape
  (reduce op.kind.op op.initValue op.dimensions x).bind fun res =>
    let res := res.map (addPadding op reduceInfo.numElementsReduced)
    if reduceInfo.needsPostPad then pad reduceInfo.pad op.paddingValue res else some res

def ReducePad (op : ReduceOp) (x : Tensor Int) : Option (Option (Tensor Int)) :=
  if anyPadSizesNegative op.pad then none else some (rewritten op x)

/-- Whatever the elements of the operand are, what replaces the op is the same. -/
def Preserves (op : ReduceOp) (shape : List Nat) : Prop :=
  ∀ x y : Tensor Int, x.shape = shape → original op x = some y →
    ∀ res, ReducePad op x = some res → ∃ z, res = some z ∧ Same z y

/-- In a row with elements, what is added is what the padding contributes to the init value; in a row of padding,
the padding value is what the init value and the padding reduce to. -/
structure Contributes (op : ReduceOp) (shape : List Nat) : Prop where
  elements : (∀ n ∈ dropDims op.dimensions 0 shape, 0 < n) →
    absorb op.kind.op op.paddingValue (dimsSize op.dimensions 0 (padShape op.pad shape) -
      dimsSize op.dimensions 0 shape) op.initValue =
        addPadding op (postReduceInfo op shape).numElementsReduced op.initValue
  padding : (∀ n ∈ dropDims op.dimensions 0 (padShape op.pad shape), 0 < n) →
    dropDims op.dimensions 0 (padShape op.pad shape) ≠ dropDims op.dimensions 0 shape →
      absorb op.kind.op op.paddingValue (dimsSize op.dimensions 0 (padShape op.pad shape)) op.initValue =
        op.paddingValue

/-! ### What the pattern computes -/

section

variable {op : ReduceOp} {shape : List Nat} {x y : Tensor Int}

theorem foldl_addDim (dims : List Nat) (info : PostReduceInfo) {pads : List PadDim} {shape : List Nat} (k : Nat)
    (h : pads.length = shape.length) :
    let post := ((zip pads shape).zipIdx k).foldl (PostReduceInfo.addDim dims) info
    post.pad = info.pad ++ dropDims dims k pads ∧
      post.needsPostPad = (info.needsPostPad || !(dropDims dims k pads).isEmpty) := by
  induction pads generalizing shape info k with
  | nil => simp [dropDims]
  | cons d pads ih =>
    obtain ⟨n, shape, rfl⟩ := exists_cons_of_length_eq_add_one h.symm
    have htail := ih (PostReduceInfo.addDim dims info ((d, n), k)) (k + 1) (add_right_cancel h)
    rw [zip_cons_cons, zipIdx_cons, foldl_cons]
    refine ⟨htail.1.trans ?_, htail.2.trans ?_⟩
    · rw [PostReduceInfo.addDim, dropDims]
      split
      · rfl
      · rw [append_assoc, singleton_append]
    · rw [PostReduceInfo.addDim, dropDims]
      split
      · rfl
      · simp

theorem pad_postReduceInfo (h : op.pad.length = shape.length) :
    (postReduceInfo op shape).pad = dropDims op.dimensions 0 op.pad ∧
      ((postReduceInfo op shape).needsPostPad = false → dropDims op.dimensions 0 op.pad = []) := by
  obtain ⟨hpad, hneeds⟩ := foldl_addDim op.dimensions ⟨[], false, 0⟩ 0 h
  refine ⟨hpad, fun hfalse => ?_⟩
  have hempty := hneeds.symm.trans hfalse
  simpa using hempty

theorem addPadding_fold (op : ReduceOp) (n : Int) (s : Finset (List Nat)) (f : List Nat → Int) (b : Int) :
    addPadding op n (s.fold op.kind.op b f) = s.fold op.kind.op (addPadding op n b) f := by
  have hop : ∃ k, ∀ a, addPadding op n a = op.kind.op k a := by
    obtain ⟨kind, dims, init, pads, p, isConstant⟩ := op
    cases kind with
    | add =>
      by_cases hzero : isConstant ∧ p = 0
      · exact ⟨0, fun a => (if_pos hzero).trans (zero_add a).symm⟩
      · exact ⟨p * n, fun a => (if_neg hzero).trans (add_comm _ _)⟩
    | min => exact ⟨p, fun a => min_comm _ _⟩
    | max => exact ⟨p, fun a => max_comm _ _⟩
    | mul => exact ⟨p ^ n.toNat, fun a => mul_comm _ _⟩
  obtain ⟨k, hk⟩ := hop
  rw [hk, hk, op_fold op.kind.op]

theorem nonNeg_of_not_negative (h : anyPadSizesNegative op.pad = false) : ∀ d ∈ op.pad, d.NonNeg := by
  intro d hd
  have hnot := any_eq_false.mp h d hd
  simp only [decide_eq_true_eq, not_or, not_lt] at hnot
  exact hnot

theorem original_eq (hnonneg : ∀ d ∈ op.pad, d.NonNeg) (h : original op x = some y) :
    op.pad.length = x.shape.length ∧ (op.dimensions.Nodup ∧ ∀ d ∈ op.dimensions, d < x.shape.length) ∧
      y.shape = dropDims op.dimensions 0 (padShape op.pad x.shape) ∧ ∀ o ∈ indices y.shape, y.get o =
        ((padSource (dropDims op.dimensions 0 op.pad) (dropDims op.dimensions 0 x.shape) o).map fun o' =>
          absorb op.kind.op op.paddingValue (dimsSize op.dimensions 0 (padShape op.pad x.shape) -
            dimsSize op.dimensions 0 x.shape) (((indices x.shape).filter fun idx =>
              dropDims op.dimensions 0 idx = o').fold op.kind.op op.initValue x.get)).getD
          (absorb op.kind.op op.paddingValue (dimsSize op.dimensions 0 (padShape op.pad x.shape)) op.initValue) := by
  obtain ⟨padded, hpad, hreduce⟩ := bind_eq_some_iff.mp h
  rw [pad] at hpad
  split at hpad
  · rename_i hok
    cases hpad
    have hlen := hok.length_eq
    rw [reduce] at hreduce
    split at hreduce
    · rename_i hdims
      cases hreduce
      have hpadded := length_padShape hlen
      refine ⟨hlen, ⟨hdims.1, fun d hd => ?_⟩, rfl, fun o ho => ?_⟩
      · rw [← hpadded]
        exact hdims.2 d hd
      · cases hsrc : padSource (dropDims op.dimensions 0 op.pad) (dropDims op.dimensions 0 x.shape) o with
        | none => exact fold_padding_row op.kind.op hnonneg hlen ho hsrc
        | some o' => exact fold_padded_row op.kind.op hnonneg hlen ho hsrc
    · cases hreduce
  · cases hpad

theorem rewritten_eq (hnonneg : ∀ d ∈ op.pad, d.NonNeg) (hlen : op.pad.length = x.shape.length)
    (hdims : op.dimensions.Nodup ∧ ∀ d ∈ op.dimensions, d < x.shape.length) :
    ∃ z, rewritten op x = some z ∧ z.shape = dropDims op.dimensions 0 (padShape op.pad x.shape) ∧
      ∀ o ∈ indices z.shape, z.get o =
        ((padSource (dropDims op.dimensions 0 op.pad) (dropDims op.dimensions 0 x.shape) o).map fun o' =>
          ((indices x.shape).filter fun idx => dropDims op.dimensions 0 idx = o').fold op.kind.op
            (addPadding op (postReduceInfo op x.shape).numElementsReduced op.initValue) x.get).getD
          op.paddingValue := by
  obtain ⟨hpad, hneeds⟩ := pad_postReduceInfo hlen
  have hkept : (dropDims op.dimensions 0 op.pad).length = (dropDims op.dimensions 0 x.shape).length :=
    length_dropDims hlen
  have hreduce : reduce op.kind.op op.initValue op.dimensions x = some ⟨dropDims op.dimensions 0 x.shape,
      fun o => ((indices x.shape).filter fun idx => dropDims op.dimensions 0 idx = o).fold op.kind.op
        op.initValue x.get⟩ := if_pos hdims
  have hshape : dropDims op.dimensions 0 (padShape op.pad x.shape) =
      padShape (dropDims op.dimensions 0 op.pad) (dropDims op.dimensions 0 x.shape) :=
    dropDims_zipWith _ hlen
  have hget : ∀ o', (Tensor.map (addPadding op (postReduceInfo op x.shape).numElementsReduced)
      ⟨dropDims op.dimensions 0 x.shape, fun o => ((indices x.shape).filter fun idx =>
        dropDims op.dimensions 0 idx = o).fold op.kind.op op.initValue x.get⟩).get o' =
      ((indices x.shape).filter fun idx => dropDims op.dimensions 0 idx = o').fold op.kind.op
        (addPadding op (postReduceInfo op x.shape).numElementsReduced op.initValue) x.get := fun o' =>
    addPadding_fold op _ _ _ _
  rw [rewritten, hreduce, hshape, hpad]
  simp only [bind_some, ← hget]
  split
  · refine ⟨_, if_pos ?_, rfl, fun o _ => rfl⟩
    refine forall₂_iff_get.mpr ⟨hkept, fun d hd hd' => ?_⟩
    exact PadDim.ok_of_nonNeg (hnonneg _ (mem_of_mem_dropDims (getElem_mem hd))) _
  · rename_i hnot
    -- all dimensions are reduced
    have hnil := hneeds (Bool.eq_false_iff.mpr hnot)
    have hnil' : dropDims op.dimensions 0 x.shape = [] := length_eq_zero_iff.mp (by rw [← hkept, hnil]; rfl)
    refine ⟨_, rfl, ?_, fun o ho => ?_⟩
    · rw [hnil, hnil']
      rfl
    · change o ∈ indices (dropDims op.dimensions 0 x.shape) at ho
      rw [hnil'] at ho
      obtain rfl := mem_indices_nil.mp ho
      rw [hnil, hnil']
      rfl

theorem original_of_shape {x' : Tensor Int} (h : original op x = some y) (hshape : x'.shape = x.shape) :
    ∃ y', original op x' = some y' := by
  obtain ⟨padded, hpad, hreduce⟩ := bind_eq_some_iff.mp h
  rw [pad] at hpad
  split at hpad
  · rename_i hok
    cases hpad
    rw [reduce] at hreduce
    split at hreduce
    · rename_i hdims
      refine ⟨_, bind_eq_some_iff.mpr ⟨_, if_pos (hshape.symm ▸ hok), if_pos ?_⟩⟩
      rwa [hshape]
    · cases hreduce
  · cases hpad

theorem exists_neutral (kind : ReduceOpKind) (init : Int) : ∃ e, kind.op e init = init := by
  cases kind with
  | add => exact ⟨0, zero_add init⟩
  | min => exact ⟨init, min_self init⟩
  | max => exact ⟨init, max_self init⟩
  | mul => exact ⟨1, one_mul init⟩

/-- What replaces the reduction is right if and only if it adds what the padding contributes in rows with
elements, and rows of padding reduce to the padding value. -/
theorem reducePad_preserves_iff (hsizes : anyPadSizesNegative op.pad = false) (h : original op x = some y) :
    Preserves op x.shape ↔ Contributes op x.shape := by
  have hnonneg := nonNeg_of_not_negative hsizes
  obtain ⟨hlength, hdims, -, -⟩ := original_eq hnonneg h
  have hkeptNonneg : ∀ d ∈ dropDims op.dimensions 0 op.pad, d.NonNeg := fun d hd =>
    hnonneg d (mem_of_mem_dropDims hd)
  have hkept : (dropDims op.dimensions 0 op.pad).length = (dropDims op.dimensions 0 x.shape).length :=
    length_dropDims hlength
  have hshape : dropDims op.dimensions 0 (padShape op.pad x.shape) =
      padShape (dropDims op.dimensions 0 op.pad) (dropDims op.dimensions 0 x.shape) :=
    dropDims_zipWith _ hlength
  have hpattern : ∀ x', ReducePad op x' = some (rewritten op x') := fun x' =>
    if_neg (Bool.eq_false_iff.mp hsizes)
  constructor
  · intro hpreserves
    obtain ⟨e, he⟩ := exists_neutral op.kind op.initValue
    -- all elements are neutral
    have hsplat : (splat x.shape e).shape = x.shape := rfl
    obtain ⟨y', hy'⟩ := original_of_shape h hsplat
    obtain ⟨-, -, hyshape, hyget⟩ := original_eq hnonneg hy'
    obtain ⟨z, hz, hzshape, hzget⟩ := rewritten_eq hnonneg hlength hdims (x := splat x.shape e)
    obtain ⟨z', hz', hsame⟩ := hpreserves _ y' hsplat hy' _ (hpattern _)
    cases hz.symm.trans hz'
    have hfold : ∀ s : Finset (List Nat), s.fold op.kind.op op.initValue (splat x.shape e).get = op.initValue := by
      intro s
      exact (fold_const_eq op.kind.op s).trans (Function.iterate_fixed he _)
    have hat : ∀ o ∈ indices (dropDims op.dimensions 0 (padShape op.pad x.shape)), z.get o = y'.get o :=
      fun o ho => hsame.get_eq o (hzshape ▸ ho)
    refine ⟨fun hpos => ?_, fun hpos hne => ?_⟩
    · have hzeros := zeros_mem_indices hpos
      have htarget := padTarget_mem hkeptNonneg hkept hzeros
      have hlengthO := (length_of_mem_indices htarget).trans (length_padShape hkept)
      have hsource := (padSource_eq_some_iff hkeptNonneg hkept hlengthO).mpr ⟨hzeros, rfl⟩
      rw [← hshape] at htarget
      have heq := hat _ htarget
      rw [hzget _ (hzshape ▸ htarget), hyget _ (hyshape ▸ htarget)] at heq
      change ((padSource _ (dropDims op.dimensions 0 x.shape) _).map _).getD _ =
        ((padSource _ (dropDims op.dimensions 0 x.shape) _).map _).getD _ at heq
      rw [hsource, map_some, map_some, getD_some, getD_some, ← addPadding_fold, hfold] at heq
      exact heq.symm
    · rw [hshape] at hpos hne
      obtain ⟨o, ho, hnone⟩ := (exists_padding_iff hkeptNonneg hkept).mpr ⟨hpos, hne⟩
      rw [← hshape] at ho
      have heq := hat o ho
      rw [hzget o (hzshape ▸ ho), hyget o (hyshape ▸ ho)] at heq
      change ((padSource _ (dropDims op.dimensions 0 x.shape) o).map _).getD _ =
        ((padSource _ (dropDims op.dimensions 0 x.shape) o).map _).getD _ at heq
      rw [hnone] at heq
      exact heq.symm
  · intro hcontributes x' y' hx' hy' res hres
    cases (hpattern x').symm.trans hres
    obtain ⟨hlength', hdims', hyshape, hyget⟩ := original_eq hnonneg hy'
    obtain ⟨z, hz, hzshape, hzget⟩ := rewritten_eq hnonneg hlength' hdims'
    refine ⟨z, hz, hzshape.trans hyshape.symm, fun o ho => ?_⟩
    rw [hzget o ho]
    rw [hzshape, ← hyshape] at ho
    rw [hyget o ho]
    rw [hyshape, hx', hshape] at ho
    rw [hx']
    have hlengthO := (length_of_mem_indices ho).trans (length_padShape hkept)
    cases hsource : padSource (dropDims op.dimensions 0 op.pad) (dropDims op.dimensions 0 x.shape) o with
    | none =>
      have hpadding := (exists_padding_iff hkeptNonneg hkept).mp ⟨o, ho, hsource⟩
      rw [← hshape] at hpadding
      exact (hcontributes.padding hpadding.1 hpadding.2).symm
    | some o' =>
      obtain ⟨ho', -⟩ := (padSource_eq_some_iff hkeptNonneg hkept hlengthO).mp hsource
      rw [map_some, map_some, getD_some, getD_some, absorb_fold op.kind.op,
        hcontributes.elements (pos_of_mem_indices ho')]

end

/-! ### Sums of a table -/

/-- Two columns are put at the end of a table, and its rows are summed up. -/
def rowSums : ReduceOp := ⟨.add, [1], 3, [⟨0, 0, 0⟩, ⟨0, 2, 0⟩], 5, false⟩

def totalSum : ReduceOp := ⟨.add, [0, 1], 0, [⟨1, 1, 0⟩, ⟨1, 1, 0⟩], 1, false⟩

def table : Tensor Int := ⟨[2, 2], fun idx => 2 * (coord idx 0 : Int) + (coord idx 1 : Int)⟩

theorem reducePad_preserves_rowSums : Preserves rowSums [2, 2] := by
  obtain ⟨y, hy⟩ : ∃ y, original rowSums table = some y := ⟨_, rfl⟩
  refine (reducePad_preserves_iff (by decide) hy).mpr ⟨fun _ => by decide, fun _ hne => absurd ?_ hne⟩
  decide

/-- Of the positions of padding only those beside the table are counted, and not those at its corners. -/
theorem not_reducePad_preserves : ¬Preserves totalSum [2, 2] := by
  intro h
  obtain ⟨z, hz, hsame⟩ := h table _ rfl rfl _ rfl
  cases hz
  exact absurd (hsame.get_eq [] (by decide)) (by decide)

end EnzymeJax.PaddedReduce
