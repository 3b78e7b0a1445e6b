import EnzymeJax.Communication.Lowering
import EnzymeJax.HLOOpt.SliceOps
import EnzymeJax.Library.Beside

/-!
# Operands of a concatenation that follow each other

Slices of one value that follow each other along the dimension of a concatenation are merged into one, also with
the left part of a wrap. Which slices follow each other is told by their limits and starts alone.
-/

namespace EnzymeJax.ConcatSlice

open Tensor Option Function
open List hiding allSome

structure WrapOp where
  operand : Operand
  dimension : Nat
  lhs : Int
  rhs : Int

inductive ConcatOperand
  | slice (op : SliceOp)
  | wrap (op : WrapOp)
  | value (v : Nat)

/-- An operand of the new concatenation: one that there was or a merged slice, or the operands of a lowered wrap
after the first. -/
inductive NewOperand
  | operand (op : ConcatOperand)
  | wrapRest (op : WrapOp)

/-! ### The ops -/

section

variable {α : Type}

/-- The operands that `lowerWrap` concatenates. -/
def wrapArgs (dim : Nat) (lhs rhs : Int) (x : Tensor α) : Option (List (Tensor α)) := do
  let sl0 ← border (lhs ≠ 0) dim (coord x.shape dim - lhs) (coord x.shape dim) x
  let sl1 ← border (rhs ≠ 0) dim 0 rhs x
  return sl0 ++ x :: sl1

variable (env : Nat → Tensor α)

def WrapOp.eval (op : WrapOp) : Option (Tensor α) :=
  (op.operand.eval env).bind (lowerWrap op.dimension op.lhs op.rhs)

def ConcatOperand.eval : ConcatOperand → Option (Tensor α)
  | .slice op => op.eval env
  | .wrap op => op.eval env
  | .value v => some (env v)

def NewOperand.eval : NewOperand → Option (List (Tensor α))
  | .operand op => (op.eval env).map ([·])
  | .wrapRest op => ((op.operand.eval env).bind (wrapArgs op.dimension op.lhs op.rhs)).map (·.drop 1)

def original (dim : Nat) (operands : List ConcatOperand) : Option (Tensor α) :=
  (allSome (operands.map (ConcatOperand.eval env))).bind (concatenate dim)

def newConcat (dim : Nat) (newOperands : List NewOperand) : Option (Tensor α) :=
  (allSome (newOperands.map (NewOperand.eval env))).bind fun ts => concatenate dim ts.flatten

end

/-! ### The pattern -/

section

variable (dim : Nat)

def canMergeSlicesAlongAxis (slice otherSlice : List SliceDim) : Bool :=
  ∀ d < slice.length,
    let s := slice.getD d ⟨0, 0, 1⟩
    let other := otherSlice.getD d ⟨0, 0, 1⟩
    if d = dim then s.limit = other.start ∧ s.stride = other.stride
    else s.start = other.start ∧ s.limit = other.limit ∧ s.stride = other.stride

def canMergeSlices (slice otherSlice : SliceOp) : Bool :=
  otherSlice.operand = slice.operand ∧ canMergeSlicesAlongAxis dim slice.dims otherSlice.dims

/-- What is compared with of the slice that is wrapped. -/
def wrapDims (wrapSlice : SliceOp) (lhs : Int) : List SliceDim :=
  if (wrapSlice.dim dim).stride = 1 then
    wrapSlice.dims.set dim ⟨(wrapSlice.dim dim).limit - lhs, (wrapSlice.dim dim).limit, 1⟩
  else wrapSlice.dims

/-- The slice that is wrapped, if its left part can be merged. -/
def wrapMerges (slice : SliceOp) (otherWrap : WrapOp) : Option SliceOp :=
  match otherWrap.operand with
  | .slice wrapSlice =>
    if wrapSlice.operand = slice.operand ∧ otherWrap.lhs ≠ 0 ∧
        canMergeSlicesAlongAxis dim slice.dims (wrapDims dim wrapSlice otherWrap.lhs) then
      some wrapSlice
    else none
  | .value _ => none

def push (newOperands : List NewOperand) (rest : List NewOperand × Bool) : List NewOperand × Bool :=
  (newOperands ++ rest.1, rest.2)

/-- The new operands and whether anything changed, where a slice may be waiting to be merged. -/
def simplify : Option SliceOp → List ConcatOperand → List NewOperand × Bool
  | none, [] => ([], false)
  | some slice, [] => ([.operand (.slice slice)], false)
  | none, .slice slice :: operands => simplify (some slice) operands
  | none, operand :: operands => push [.operand operand] (simplify none operands)
  | some slice, .slice otherSlice :: operands =>
    if canMergeSlices dim slice otherSlice then
      ((simplify (some (sliceTo slice otherSlice)) operands).1, true)
    else push [.operand (.slice slice)] (simplify (some otherSlice) operands)
  | some slice, .wrap otherWrap :: operands =>
    match wrapMerges dim slice otherWrap with
    | some wrapSlice =>
      (.operand (.slice (sliceTo slice wrapSlice)) :: .wrapRest otherWrap :: (simplify none operands).1, true)
    | none => push [.operand (.slice slice), .operand (.wrap otherWrap)] (simplify none operands)
  | some slice, .value v :: operands =>
    push [.operand (.slice slice), .operand (.value v)] (simplify none operands)

def concatSliceSimplify (operands : List ConcatOperand) : Option (List NewOperand) :=
  let newOperands := simplify dim none operands
  if newOperands.2 then some newOperands.1 else none

end

/-! ### What is preserved -/

/-- Whatever the values are, the new operands have the same concatenation. -/
def Preserves (α : Type) (shapes : Nat → List Nat) (dim : Nat) (operands : List ConcatOperand)
    (newOperands : List NewOperand) : Prop :=
  ∀ (env : Nat → Tensor α) (y : Tensor α), (∀ v, (env v).shape = shapes v) →
    original env dim operands = some y → ∃ z, newConcat env dim newOperands = some z ∧ Same z y

inductive Merge
  | slices (slice otherSlice : SliceOp)
  | wrap (slice : SliceOp) (otherWrap : WrapOp) (wrapSlice : SliceOp)

/-- What is merged. -/
def merges (dim : Nat) : Option SliceOp → List ConcatOperand → List Merge
  | _, [] => []
  | none, .slice slice :: operands => merges dim (some slice) operands
  | none, _ :: operands => merges dim none operands
  | some slice, .slice otherSlice :: operands =>
    if canMergeSlices dim slice otherSlice then
      .slices slice otherSlice :: merges dim (some (sliceTo slice otherSlice)) operands
    else merges dim (some otherSlice) operands
  | some slice, .wrap otherWrap :: operands =>
    match wrapMerges dim slice otherWrap with
    | some wrapSlice => .wrap slice otherWrap wrapSlice :: merges dim none operands
    | none => merges dim none operands
  | some _, .value _ :: operands => merges dim none operands

/-- The stride takes the slice to where the other one starts, and the left part of the wrap is all that is merged,
unless there are no elements. -/
def Merge.Exact (dim : Nat) (noElements : Prop) : Merge → Prop
  | .slices slice otherSlice => (otherSlice.dim dim).size = 0 ∨
      (slice.dim dim).stride ∣ (otherSlice.dim dim).start - (slice.dim dim).start ∨
      noElements ∧ (slice.dim dim).size + (otherSlice.dim dim).size = ((sliceTo slice otherSlice).dim dim).size
  | .wrap slice otherWrap wrapSlice => (wrapSlice.dim dim).stride = 1 ∨
      ((wrapSlice.dim dim).size = otherWrap.lhs ∧
        (slice.dim dim).stride ∣ (wrapSlice.dim dim).start - (slice.dim dim).start) ∨
      noElements ∧ (slice.dim dim).size + otherWrap.lhs = ((sliceTo slice wrapSlice).dim dim).size

/-- No slice with a stride is wrapped. -/
def Merge.WrapUnit (dim : Nat) : Merge → Prop
  | .slices _ _ => True
  | .wrap _ _ wrapSlice => (wrapSlice.dim dim).stride = 1

/-! ### Merged slices -/

section

variable {α : Type} {env : Nat → Tensor α} {dim : Nat} {slice other m : SliceOp} {t t' : Tensor α}

/-- What a slice takes of each dimension. -/
def source (slice : SliceOp) (d k : Nat) : Nat := (slice.dim d).source k

/-- A slice of the same value that is the same but for the dimension. -/
structure SameBut (dim : Nat) (slice other : SliceOp) : Prop where
  operand_eq : other.operand = slice.operand
  dim_eq : ∀ d < slice.dims.length, d ≠ dim → other.dim d = slice.dim d

variable {d : Nat} {wrapSlice : SliceOp} {tw x y : Tensor α} {op : ConcatOperand} {cur cur' : Option SliceOp}
  {us : List (List (Tensor α))} {env' : Nat → Tensor α}

theorem canMergeSlicesAlongAxis_spec {dims : List SliceDim} (h : canMergeSlicesAlongAxis dim slice.dims dims)
    (hd : d < slice.dims.length) : (d = dim → (slice.dim d).limit = (dims.getD d ⟨0, 0, 1⟩).start ∧
      (slice.dim d).stride = (dims.getD d ⟨0, 0, 1⟩).stride) ∧
    (d ≠ dim → dims.getD d ⟨0, 0, 1⟩ = slice.dim d) := by
  have hat := of_decide_eq_true h d hd
  constructor
  · intro heq
    rw [if_pos heq] at hat
    exact hat
  · intro hne
    rw [if_neg hne] at hat
    obtain ⟨hstart, hlimit, hstride⟩ := hat
    change (slice.dim d).start = _ at hstart
    change (slice.dim d).limit = _ at hlimit
    change (slice.dim d).stride = _ at hstride
    calc dims.getD d ⟨0, 0, 1⟩ = ⟨(slice.dim d).start, (slice.dim d).limit, (slice.dim d).stride⟩ := by
          rw [hstart, hlimit, hstride]
      _ = slice.dim d := rfl

theorem takenAlong_of_sameBut (h : other.eval env = some t) (hsame : SameBut dim slice other)
    (hlen : other.dims.length = slice.dims.length) (hdim : dim < other.dims.length) :
    TakenAlong dim (source slice) (env slice.operand) (other.dim dim) t := by
  obtain ⟨hrank, -, -, hread⟩ := eval_slice h
  refine ⟨coord_eval h hdim, fun c hc => ?_⟩
  rw [hread c hc, hsame.operand_eq]
  refine read_congr _ fun d hd => ?_
  rw [← hsame.operand_eq, ← hrank, hlen] at hd
  rw [taken]
  split
  · rename_i hdd
    rw [hdd]
  · rename_i hdd
    rw [hsame.dim_eq d hd hdd]
    rfl

theorem sameBut_self (dim : Nat) (slice : SliceOp) : SameBut dim slice slice := ⟨rfl, fun _ _ _ => rfl⟩

theorem shape_set_eq (h : slice.eval env = some t) (h' : other.eval env = some t') (hsame : SameBut dim slice other)
    (hlen : other.dims.length = slice.dims.length) : t'.shape.set dim 0 = t.shape.set dim 0 := by
  obtain ⟨-, hshape, -, -⟩ := eval_slice h
  obtain ⟨-, hshape', -, -⟩ := eval_slice h'
  refine ext_getElem (by simp [hshape, hshape', hlen]) fun d hd hd' => ?_
  rw [length_set, hshape, length_map] at hd'
  rw [getElem_set, getElem_set]
  split
  · rfl
  · rename_i hne
    rw [← coord_eq_getElem, ← coord_eq_getElem, coord_eval h' (hlen.symm ▸ hd'), coord_eval h hd',
      hsame.dim_eq d hd' (Ne.symm hne)]

theorem exists_merged (h : slice.eval env = some t) (hdim : dim < slice.dims.length) (hsame : SameBut dim slice m)
    (hlen : m.dims.length = slice.dims.length) (hstart : (m.dim dim).start = (slice.dim dim).start)
    (hstride : (m.dim dim).stride = (slice.dim dim).stride) (hle : (slice.dim dim).limit ≤ (m.dim dim).limit)
    (hlimit : (m.dim dim).limit ≤ coord (env slice.operand).shape dim) : ∃ tm, m.eval env = some tm := by
  obtain ⟨hrank, -, hok, -⟩ := eval_slice h
  refine eval_slice_of_ok (by rw [hlen, hrank, hsame.operand_eq]) fun d hd => ?_
  rw [hlen] at hd
  rw [hsame.operand_eq]
  by_cases hdd : d = dim
  · obtain ⟨h₀, h₁, -, h₃⟩ := hok dim hdim
    rw [hdd]
    exact ⟨hstart ▸ h₀, hstart ▸ h₁.trans hle, hlimit, hstride ▸ h₃⟩
  · rw [hsame.dim_eq d hd hdd]
    exact hok d hd

theorem dims_length_eq (h : slice.eval env = some t) (h' : other.eval env = some t')
    (hsame : SameBut dim slice other) : other.dims.length = slice.dims.length := by
  rw [(eval_slice h).1, (eval_slice h').1, hsame.operand_eq]

theorem dim_sliceTo_self (hlen : other.dims.length = slice.dims.length) (hdim : dim < slice.dims.length) :
    (sliceTo slice other).dim dim = ⟨(slice.dim dim).start, (other.dim dim).limit, (slice.dim dim).stride⟩ :=
  dim_sliceTo hdim (hlen ▸ hdim)

theorem length_sliceTo (hlen : other.dims.length = slice.dims.length) :
    (sliceTo slice other).dims.length = slice.dims.length := by
  rw [sliceTo, length_zipWith, hlen, min_self]

theorem sameBut_sliceTo (hsame : SameBut dim slice other)
    (hlen : other.dims.length = slice.dims.length) : SameBut dim slice (sliceTo slice other) := by
  refine ⟨rfl, fun d hd hdd => ?_⟩
  rw [dim_sliceTo hd (hlen ▸ hd), hsame.dim_eq d hd hdd]

theorem exists_sliceTo (h : slice.eval env = some t) (h' : other.eval env = some t') (hsame : SameBut dim slice other)
    (hdim : dim < slice.dims.length) (hle : (slice.dim dim).limit ≤ (other.dim dim).limit) :
    ∃ tm, (sliceTo slice other).eval env = some tm := by
  have hlen := dims_length_eq h h' hsame
  have hself := dim_sliceTo_self hlen hdim
  refine exists_merged h hdim (sameBut_sliceTo hsame hlen) (length_sliceTo hlen) ?_ ?_ ?_ ?_
  · rw [hself]
  · rw [hself]
  · rw [hself]
    exact hle
  · rw [hself, ← hsame.operand_eq]
    exact ((eval_slice h').2.2.1 dim (hlen.symm ▸ hdim)).2.2.1

theorem canMergeSlices_spec (hm : canMergeSlices dim slice other) :
    SameBut dim slice other ∧ (dim < slice.dims.length → (slice.dim dim).limit = (other.dim dim).start ∧
        (slice.dim dim).stride = (other.dim dim).stride) := by
  obtain ⟨hoperand, hdims⟩ := of_decide_eq_true hm
  exact ⟨⟨hoperand, fun d hd hdd => (canMergeSlicesAlongAxis_spec hdims hd).2 hdd⟩,
    fun hdim => (canMergeSlicesAlongAxis_spec hdims hdim).1 rfl⟩

variable {otherWrap : WrapOp}

theorem wrapMerges_spec (hm : wrapMerges dim slice otherWrap = some wrapSlice) (hlen : dim < wrapSlice.dims.length) :
    otherWrap.operand = .slice wrapSlice ∧ otherWrap.lhs ≠ 0 ∧ SameBut dim slice wrapSlice ∧
      (dim < slice.dims.length → (slice.dim dim).stride = (wrapSlice.dim dim).stride ∧
        ((wrapSlice.dim dim).stride = 1 ∧ (slice.dim dim).limit = (wrapSlice.dim dim).limit - otherWrap.lhs ∨
          (wrapSlice.dim dim).stride ≠ 1 ∧ (slice.dim dim).limit = (wrapSlice.dim dim).start)) := by
  unfold wrapMerges at hm
  split at hm
  · rename_i wrapSlice' hoperand
    split at hm
    · rename_i hcond
      obtain rfl := some.inj hm
      obtain ⟨hslice, hlhs, hdims⟩ := hcond
      have hget : ∀ d ≠ dim, (wrapDims dim wrapSlice' otherWrap.lhs).getD d ⟨0, 0, 1⟩ = wrapSlice'.dim d := by
        intro d hd
        rw [wrapDims]
        split
        · rw [getD_eq_getElem?_getD, getElem?_set_ne (Ne.symm hd), ← getD_eq_getElem?_getD]
          rfl
        · rfl
      refine ⟨hoperand, hlhs, ⟨hslice, fun d hd hdd => ?_⟩, fun hdim => ?_⟩
      · rw [← hget d hdd]
        exact (canMergeSlicesAlongAxis_spec hdims hd).2 hdd
      · obtain ⟨hlimit, hstride⟩ := (canMergeSlicesAlongAxis_spec hdims hdim).1 rfl
        rw [wrapDims] at hlimit hstride
        split at hlimit
        · rename_i hunit
          rw [if_pos hunit] at hstride
          rw [getD_eq_getElem _ _ (by rwa [length_set]), getElem_set_self] at hlimit hstride
          exact ⟨hstride.trans hunit.symm, .inl ⟨hunit, hlimit⟩⟩
        · rename_i hunit
          rw [if_neg hunit] at hstride
          exact ⟨hstride, .inr ⟨hunit, hlimit⟩⟩
    · cases hm
  · cases hm

/-! ### What is merged has the same elements -/

variable {shape : List Nat}
variable {ts : List (Tensor α)}

theorem coord_eq_of_fits (hfits : FitTogether dim shape ts) (ht : t ∈ ts) (hd : d ≠ dim) :
    coord t.shape d = coord shape d := by
  have hcoord := congrArg (coord · d) (hfits t ht)
  rwa [coord_set_of_ne hd, coord_set_of_ne hd] at hcoord

theorem lines_merge_slices (h : slice.eval env = some t) (h' : other.eval env = some t')
    (hm : canMergeSlices dim slice other) (hdim : dim < slice.dims.length) (hfits : FitTogether dim shape [t, t']) :
    ∃ tm, (sliceTo slice other).eval env = some tm ∧ FitTogether dim shape [tm] ∧
      coord tm.shape dim ≤ coord t.shape dim + coord t'.shape dim ∧
        ((Merge.slices slice other).Exact dim (0 ∈ shape.set dim 1) → Lines dim shape [t, t'] [tm]) := by
  obtain ⟨hsame, hdims⟩ := canMergeSlices_spec hm
  obtain ⟨hlimit, hstride⟩ := hdims hdim
  have hlen := dims_length_eq h h' hsame
  obtain ⟨-, -, hok, -⟩ := eval_slice h
  obtain ⟨-, -, hok', -⟩ := eval_slice h'
  obtain ⟨-, hab, -, hk⟩ := hok dim hdim
  obtain ⟨-, hbc, -, -⟩ := hok' dim (hlen.symm ▸ hdim)
  obtain ⟨tm, htm⟩ := exists_sliceTo h h' hsame hdim (hlimit.le.trans hbc)
  have hlengthm := length_sliceTo hlen
  have hsamem := sameBut_sliceTo hsame hlen
  have hdimm := dim_sliceTo_self hlen hdim
  have hother : other.dim dim = ⟨(slice.dim dim).limit, (other.dim dim).limit, (slice.dim dim).stride⟩ := by
    rw [hlimit, hstride]
  have hfitsm : FitTogether dim shape [tm] := by
    intro x hx
    rw [mem_singleton.mp hx, shape_set_eq h htm hsamem hlengthm]
    exact hfits t mem_cons_self
  have hsize := coord_eval h hdim
  have hsize' := coord_eval h' (hlen.symm ▸ hdim)
  have hsizem := coord_eval htm (hlengthm.symm ▸ hdim)
  refine ⟨tm, htm, hfitsm, ?_, fun hexact => ?_⟩
  · rw [hsize, hsize', hsizem, hdimm, hother]
    exact size_le_add hk
  have htaken := takenAlong_of_sameBut h (sameBut_self dim slice) rfl hdim
  have htaken' := takenAlong_of_sameBut h' hsame hlen (hlen.symm ▸ hdim)
  have htakenm := takenAlong_of_sameBut htm hsamem hlengthm (hlengthm.symm ▸ hdim)
  have hpositions : positions [slice.dim dim, other.dim dim] = positions [(sliceTo slice other).dim dim] →
      Lines dim shape [t, t'] [tm] :=
    Lines.of_positions (.cons htaken (.cons htaken' .nil)) (.cons htakenm .nil) hfits hfitsm
  rw [hdimm] at hpositions
  rcases hexact with hzero | hdvd | ⟨hempty, hsizes⟩
  · refine hpositions ?_
    rw [hother] at hzero ⊢
    exact positions_of_empty hzero hk (hlimit.le.trans hbc)
  · refine hpositions ?_
    rw [← hlimit] at hdvd
    rw [hother]
    exact positions_of_dvd hk hab (hlimit.le.trans hbc) hdvd
  · refine Lines.of_empty hfits hfitsm ?_ hempty
    rw [total_cons, total_cons, total_nil, total_cons, total_nil, hsize, hsize', hsizem]
    omega

theorem exists_wrap_parts (hx : other.eval env = some x) (hw : otherWrap.eval env = some tw)
    (hoperand : otherWrap.operand = .slice other) (hlhs : otherWrap.lhs ≠ 0) (hsame : SameBut dim slice other)
    (h : slice.eval env = some t) (hdim : dim < slice.dims.length) (hfits : FitTogether dim shape [t, tw]) :
    ∃ left rest, (NewOperand.wrapRest otherWrap).eval env = some rest ∧ Lines dim shape [tw] (left :: rest) ∧
      0 < otherWrap.lhs ∧ otherWrap.lhs ≤ (other.dim dim).size ∧
        TakenAlong dim (source slice) (env slice.operand) ⟨(other.dim dim).start +
          ((other.dim dim).size - otherWrap.lhs) * (other.dim dim).stride, (other.dim dim).limit,
            (other.dim dim).stride⟩ left := by
  obtain ⟨x', hx', hlower⟩ := bind_eq_some_iff.mp hw
  rw [hoperand] at hx'
  cases hx.symm.trans hx'
  obtain ⟨sl0, hsl0, hlower⟩ := bind_eq_some_iff.mp hlower
  obtain ⟨sl1, hsl1, hcat⟩ := bind_eq_some_iff.mp hlower
  have hargs : wrapArgs otherWrap.dimension otherWrap.lhs otherWrap.rhs x = some (sl0 ++ x :: sl1) := by
    rw [wrapArgs, hsl0, hsl1]
    rfl
  rw [border, if_pos (decide_eq_true hlhs)] at hsl0
  obtain ⟨left, hleft, rfl⟩ := map_eq_some_iff.mp hsl0
  have hlen := dims_length_eq h hx hsame
  obtain ⟨hd, -, hfitsw, -⟩ := pieces_of_concatenate hcat
  have hrankx : x.shape.length = tw.shape.length :=
    hfitsw.length_shape (mem_append_right _ mem_cons_self)
  obtain ⟨hstart, hle, -, hshape, hread⟩ := read_sliceAlong (hrankx.symm ▸ hd) hleft
  have hpos : 0 < otherWrap.lhs := by omega
  have hrank : x.shape.length = slice.dims.length := by
    rw [(eval_slice hx).2.1, length_map, hlen]
  -- the extents are those of the slice but for the dimension, so the wrap is along it
  have hdimension : otherWrap.dimension = dim := by
    by_contra hne
    have hwcoord := coord_eq_of_fits hfits (mem_cons_of_mem _ mem_cons_self) hne
    have htcoord := coord_eq_of_fits hfits mem_cons_self hne
    have hlt : otherWrap.dimension < slice.dims.length := by rw [← hrank, hrankx]; exact hd
    rw [coord_eval h hlt] at htcoord
    have hxcoord := coord_eval hx (hlen.symm ▸ hlt)
    rw [hsame.dim_eq _ hlt hne] at hxcoord
    rw [coord_concatenate hcat, total_append, total_cons, total_cons, hshape,
      coord_set_self (hrankx.symm ▸ hd)] at hwcoord
    omega
  rw [hdimension] at hcat hshape hread hstart
  have hsizex := coord_eval hx (hlen.symm ▸ hdim)
  rw [hsizex] at hshape hread hstart
  have hlefts : left.shape = x.shape.set dim otherWrap.lhs.toNat := by
    rw [hshape]
    congr 1
    omega
  obtain ⟨-, -, hok, -⟩ := eval_slice hx
  obtain ⟨h₀, -, -, hk⟩ := hok dim (hlen.symm ▸ hdim)
  have htaken := takenAlong_of_sameBut hx hsame hlen (hlen.symm ▸ hdim)
  have hfitsLines : Lines dim tw.shape [tw] (left :: x :: sl1) := Lines.of_concatenate hcat
  have htwfits := hfits tw (mem_cons_of_mem _ mem_cons_self)
  refine ⟨left, x :: sl1, ?_, ?_, hpos, by omega, ?_, fun c hc => ?_⟩
  · rw [NewOperand.eval, hoperand]
    change ((other.eval env).bind _).map _ = _
    rw [hx, bind_some, hargs]
    rfl
  · exact hfitsLines.of_shape htwfits
  · rw [hlefts, coord_set_self (hrank.symm ▸ hdim)]
    have hlhsNat : otherWrap.lhs = (otherWrap.lhs.toNat : Int) := (Int.toNat_of_nonneg hpos.le).symm
    have hlhsLe : otherWrap.lhs.toNat ≤ (other.dim dim).size := by omega
    rw [hlhsNat, Int.toNat_natCast]
    exact (size_tail hk hlhsLe).symm
  · have hcx : Within x.shape (update c dim ((((other.dim dim).size : Int) - otherWrap.lhs).toNat + c dim)) := by
      have hcd := hc dim (by rw [hlefts, length_set, hrank]; exact hdim)
      rw [hlefts, coord_set_self (hrank.symm ▸ hdim)] at hcd
      intro e he
      by_cases hed : e = dim
      · rw [hed, update_self, hsizex]
        omega
      · rw [update_of_ne hed]
        have hce := hc e (by rw [hlefts, length_set]; exact he)
        rwa [hlefts, coord_set_of_ne hed] at hce
    rw [hread c hc, htaken.read_eq _ hcx, taken_update, update_self]
    have hsrc : (other.dim dim).source ((((other.dim dim).size : Int) - otherWrap.lhs).toNat + c dim) =
        SliceDim.source ⟨(other.dim dim).start +
          ((other.dim dim).size - otherWrap.lhs) * (other.dim dim).stride, (other.dim dim).limit,
            (other.dim dim).stride⟩ (c dim) := by
      rw [SliceDim.source, SliceDim.source]
      push_cast
      rw [Int.toNat_of_nonneg (by omega), add_mul, add_assoc]
    rw [hsrc]

theorem wrapMerges_operand (hm : wrapMerges dim slice otherWrap = some wrapSlice) :
    otherWrap.operand = .slice wrapSlice ∧ wrapSlice.operand = slice.operand := by
  unfold wrapMerges at hm
  split at hm
  · rename_i wrapSlice' hoperand
    split at hm
    · rename_i hcond
      cases hm
      exact ⟨hoperand, hcond.1⟩
    · cases hm
  · cases hm

theorem lines_merge_wrap (h : slice.eval env = some t) (hw : otherWrap.eval env = some tw)
    (hm : wrapMerges dim slice otherWrap = some other) (hdim : dim < slice.dims.length)
    (hd : dim < shape.length) (hfits : FitTogether dim shape [t, tw]) :
    ∃ tm rest, (sliceTo slice other).eval env = some tm ∧
      (NewOperand.wrapRest otherWrap).eval env = some rest ∧ FitTogether dim shape (tm :: rest) ∧
        (slice.dim dim).limit ≤ (other.dim dim).limit ∧
        TakenAlong dim (source slice) (env slice.operand)
          ⟨(slice.dim dim).start, (other.dim dim).limit, (slice.dim dim).stride⟩ tm ∧
        ((Merge.wrap slice otherWrap other).Exact dim (0 ∈ shape.set dim 1) →
          Lines dim shape [t, tw] (tm :: rest)) := by
  obtain ⟨hoperand, hval⟩ := wrapMerges_operand hm
  obtain ⟨x, hx, -⟩ := bind_eq_some_iff.mp hw
  rw [hoperand] at hx
  have hlen : other.dims.length = slice.dims.length := by
    rw [(eval_slice h).1, ← hval]
    exact (eval_slice hx).1
  obtain ⟨-, hlhs, hsame, hdims⟩ := wrapMerges_spec hm (hlen.symm ▸ hdim)
  obtain ⟨hstride, hlimit⟩ := hdims hdim
  obtain ⟨left, rest, hrest, hlines, hpos, hle, htakenLeft⟩ :=
    exists_wrap_parts hx hw hoperand hlhs hsame h hdim hfits
  obtain ⟨-, -, hok, -⟩ := eval_slice h
  obtain ⟨-, -, hok', -⟩ := eval_slice hx
  obtain ⟨-, hab, -, hk⟩ := hok dim hdim
  obtain ⟨-, hbc, -, hk'⟩ := hok' dim (hlen.symm ▸ hdim)
  have hunitSize : (other.dim dim).stride = 1 →
      ((other.dim dim).size : Int) = (other.dim dim).limit - (other.dim dim).start := by
    intro hunit
    rw [SliceDim.size_of_unit hunit]
    omega
  have hlimitLe : (slice.dim dim).limit ≤ (other.dim dim).limit := by
    rcases hlimit with ⟨-, hlimit⟩ | ⟨-, hlimit⟩
    · omega
    · omega
  obtain ⟨tm, htm⟩ := exists_sliceTo h hx hsame hdim hlimitLe
  have hlengthm := length_sliceTo hlen
  have hsamem := sameBut_sliceTo hsame hlen
  have hdimm := dim_sliceTo_self hlen hdim
  have hfitsm : FitTogether dim shape [tm] := by
    intro y hy
    rw [mem_singleton.mp hy, shape_set_eq h htm hsamem hlengthm]
    exact hfits t mem_cons_self
  have hfitsrest : FitTogether dim shape rest := fun y hy =>
    hlines.fits_right y (mem_cons_of_mem _ hy)
  have hfitsleft : FitTogether dim shape [t, left] := by
    intro y hy
    rcases mem_cons.mp hy with rfl | hy
    · exact hfits y mem_cons_self
    · rw [mem_singleton.mp hy]
      exact hlines.fits_right left mem_cons_self
  have hfitst : FitTogether dim shape [t] := fun y hy => hfitsleft y (by
    rw [mem_singleton.mp hy]
    exact mem_cons_self)
  have htakenm := takenAlong_of_sameBut htm hsamem hlengthm (hlengthm.symm ▸ hdim)
  rw [hdimm] at htakenm
  refine ⟨tm, rest, htm, hrest, fitTogether_append.mpr ⟨hfitsm, hfitsrest⟩, hlimitLe, htakenm, fun hexact => ?_⟩
  suffices hmerged : Lines dim shape [t, left] [tm] from
    ((Lines.refl hfitst).append hd hlines).trans (hmerged.append hd (Lines.refl hfitsrest))
  have htaken := takenAlong_of_sameBut h (sameBut_self dim slice) rfl hdim
  have hsize := coord_eval h hdim
  have hsizem := coord_eval htm (hlengthm.symm ▸ hdim)
  have hsizeLeft : (coord left.shape dim : Int) = otherWrap.lhs := by
    have hlhsNat : otherWrap.lhs = (otherWrap.lhs.toNat : Int) := (Int.toNat_of_nonneg hpos.le).symm
    have hlhsLe : otherWrap.lhs.toNat ≤ (other.dim dim).size := by omega
    have htail := size_tail (a := (other.dim dim).start) (c := (other.dim dim).limit) hk' hlhsLe
    rw [← hlhsNat] at htail
    rw [htakenLeft.size_eq]
    exact (congrArg Int.ofNat htail).trans hlhsNat.symm
  -- the left part starts where the slice stops
  have hmerged : (other.dim dim).start + ((other.dim dim).size - otherWrap.lhs) * (other.dim dim).stride =
      (slice.dim dim).limit → (slice.dim dim).stride ∣ (slice.dim dim).limit - (slice.dim dim).start →
        Lines dim shape [t, left] [tm] := by
    intro hstart hdvd
    rw [hstart, ← hstride] at htakenLeft
    exact Lines.of_positions (.cons htaken (.cons htakenLeft .nil)) (.cons htakenm .nil) hfitsleft hfitsm
      (positions_of_dvd hk hab hlimitLe hdvd)
  rcases hexact with hunit | ⟨hall, hdvd⟩ | ⟨hempty, hsizes⟩
  · have hn := hunitSize hunit
    refine hmerged ?_ ?_
    · rw [hunit, mul_one]
      omega
    · rw [hstride, hunit]
      exact one_dvd _
  · have hstart : (other.dim dim).start = (slice.dim dim).limit := by
      rcases hlimit with ⟨hunit, hlimit⟩ | ⟨-, hlimit⟩
      · have hn := hunitSize hunit
        omega
      · exact hlimit.symm
    refine hmerged ?_ ?_
    · rw [hall, sub_self, zero_mul, add_zero, hstart]
    · rwa [← hstart]
  · refine Lines.of_empty hfitsleft hfitsm ?_ hempty
    rw [total_cons, total_cons, total_nil, total_cons, total_nil, hsize, hsizem]
    omega

/-! ### The whole run -/

/-- The operands that are still to be treated. -/
def pending : Option SliceOp → List ConcatOperand → List ConcatOperand
  | none, operands => operands
  | some slice, operands => .slice slice :: operands

structure Simplified (env : Nat → Tensor α) (dim : Nat) (shape : List Nat) (cur : Option SliceOp)
    (operands : List ConcatOperand) (ts : List (Tensor α)) (us : List (List (Tensor α))) : Prop where
  eval_eq : List.Forall₂ (fun op u => NewOperand.eval env op = some u) (simplify dim cur operands).1 us
  fits : FitTogether dim shape us.flatten
  lines : (∀ m ∈ merges dim cur operands, m.Exact dim (0 ∈ shape.set dim 1)) → Lines dim shape ts us.flatten
  total_le : (∀ m ∈ merges dim cur operands, m.WrapUnit dim) → total dim us.flatten ≤ total dim ts
  first : ∀ s, cur = some s → ∃ limit u rest, us.flatten = u :: rest ∧ (s.dim dim).limit ≤ limit ∧
    TakenAlong dim (source s) (env s.operand) ⟨(s.dim dim).start, limit, (s.dim dim).stride⟩ u

variable {operands : List ConcatOperand}

theorem simplify_wrap_of_none {op : WrapOp}
    (hm : wrapMerges dim slice op = none) : simplify dim (some slice) (.wrap op :: operands) =
      push [.operand (.slice slice), .operand (.wrap op)] (simplify dim none operands) := by
  rw [simplify, hm]

theorem merges_wrap_of_none {op : WrapOp} (hm : wrapMerges dim slice op = none) :
    merges dim (some slice) (.wrap op :: operands) = merges dim none operands := by
  rw [merges, hm]

theorem length_dims_of_fits (h : slice.eval env = some t)
    (hfits : FitTogether dim shape ts) (ht : t ∈ ts) : slice.dims.length = shape.length := by
  rw [← hfits.length_shape ht, (eval_slice h).2.1, length_map]

theorem Simplified.keep {operands operands' : List ConcatOperand} (h : Simplified env dim shape cur' operands' ts us)
    (hd : dim < shape.length) (hop : op.eval env = some t) (hfits : FitTogether dim shape [t])
    (hsimplify : (simplify dim cur operands).1 = .operand op :: (simplify dim cur' operands').1)
    (hmerges : merges dim cur operands = merges dim cur' operands') (hfirst : ∀ s, cur = some s → op = .slice s) :
    Simplified env dim shape cur operands (t :: ts) ([t] :: us) := by
  refine ⟨?_, fitTogether_append.mpr ⟨hfits, h.fits⟩, fun hexact => ?_, fun hunit => ?_, fun s hs => ?_⟩
  · rw [hsimplify]
    refine .cons ?_ h.eval_eq
    rw [NewOperand.eval, hop]
    rfl
  · rw [hmerges] at hexact
    exact (Lines.refl hfits).append hd (h.lines hexact)
  · rw [hmerges] at hunit
    have hle := h.total_le hunit
    rw [flatten_cons, singleton_append, total_cons, total_cons]
    omega
  · rw [hfirst s hs] at hop
    have hs' : s.eval env = some t := hop
    have hdims := length_dims_of_fits hs' hfits mem_cons_self
    exact ⟨(s.dim dim).limit, t, us.flatten, rfl, le_rfl,
      takenAlong_of_sameBut hs' (sameBut_self dim s) rfl (hdims.symm ▸ hd)⟩

theorem first_of_merged {us : List (Tensor α)} (hfirst : ∃ limit u rest, us = u :: rest ∧
      ((sliceTo slice other).dim dim).limit ≤ limit ∧
        TakenAlong dim (source (sliceTo slice other)) (env (sliceTo slice other).operand)
          ⟨((sliceTo slice other).dim dim).start, limit, ((sliceTo slice other).dim dim).stride⟩ u)
    (h : slice.eval env = some t) (h' : other.eval env = some t') (hm : canMergeSlices dim slice other)
    (hdim : dim < slice.dims.length) : ∃ limit u rest, us = u :: rest ∧
      ((slice.dim dim).limit ≤ (other.dim dim).limit ∧ (other.dim dim).limit ≤ limit) ∧
      TakenAlong dim (source slice) (env slice.operand)
        ⟨(slice.dim dim).start, limit, (slice.dim dim).stride⟩ u := by
  obtain ⟨hsame, hdims⟩ := canMergeSlices_spec hm
  have hlen := dims_length_eq h h' hsame
  have hsamem := sameBut_sliceTo hsame hlen
  obtain ⟨limit, u, rest, hus, hle, htaken⟩ := hfirst
  rw [dim_sliceTo_self hlen hdim] at hle htaken
  have hbc := ((eval_slice h').2.2.1 dim (hlen.symm ▸ hdim)).2.1
  refine ⟨limit, u, rest, hus, ⟨(hdims hdim).1.le.trans hbc, hle⟩, htaken.congr fun d hd hdd => ?_⟩
  change d < (env slice.operand).shape.length at hd
  funext k
  rw [source, source, hsamem.dim_eq d ((eval_slice h).1 ▸ hd) hdd]

theorem exists_simplified (hd : dim < shape.length) (operands : List ConcatOperand) (cur : Option SliceOp)
    (ts : List (Tensor α)) (hts : Forall₂ (fun op t => ConcatOperand.eval env op = some t) (pending cur operands) ts)
    (hfits : FitTogether dim shape ts) : ∃ us, Simplified env dim shape cur operands ts us := by
  induction operands generalizing cur ts with
  | nil =>
    have hnil : Simplified env dim shape none [] [] [] :=
      ⟨.nil, fun t ht => (not_mem_nil ht).elim, fun _ => .refl fun t ht => (not_mem_nil ht).elim,
        fun _ => le_rfl, fun s hs => by cases hs⟩
    cases cur with
    | none =>
      cases hts with
      | nil => exact ⟨_, hnil⟩
    | some slice =>
      cases hts with
      | cons ht hts =>
        cases hts with
        | nil => exact ⟨_, hnil.keep hd ht hfits rfl rfl fun s hs => by rw [some.inj hs]⟩
  | cons operand operands ih =>
    -- an operand that is no slice, where no slice is waiting
    have hkeep : ∀ op ts, (∀ s, op ≠ .slice s) →
        Forall₂ (fun op t => ConcatOperand.eval env op = some t) (op :: operands) ts →
          FitTogether dim shape ts → ∃ us, Simplified env dim shape none (op :: operands) ts us := by
      intro op ts hop hts hfits
      cases hts with
      | cons ht hts =>
        obtain ⟨hfitst, hfits⟩ := fitTogether_cons.mp hfits
        obtain ⟨us, hus⟩ := ih none _ hts hfits
        cases op with
        | slice s => exact absurd rfl (hop s)
        | wrap op | value v => exact ⟨_, hus.keep hd ht hfitst rfl rfl fun s hs => by cases hs⟩
    cases cur with
    | none =>
      cases operand with
      | slice op =>
        obtain ⟨us, hus⟩ := ih (some op) ts hts hfits
        exact ⟨us, hus.eval_eq, hus.fits, hus.lines, hus.total_le, fun s hs => by cases hs⟩
      | wrap op | value v => exact hkeep _ ts nofun hts hfits
    | some slice =>
      cases hts with
      | cons ht hts =>
        obtain ⟨hfitst, hfitsrest⟩ := fitTogether_cons.mp hfits
        cases operand with
        | slice op =>
          have hdims := length_dims_of_fits ht hfits mem_cons_self
          have hdim : dim < slice.dims.length := hdims.symm ▸ hd
          by_cases hm : canMergeSlices dim slice op
          · cases hts with
            | cons ht' hts =>
              obtain ⟨hfitst', hfitsrest⟩ := fitTogether_cons.mp hfitsrest
              obtain ⟨tm, htm, hfitsm, hle, hlines⟩ := lines_merge_slices ht ht' hm hdim
                (fitTogether_cons.mpr ⟨hfitst, hfitst'⟩)
              obtain ⟨us, hus⟩ := ih (some (sliceTo slice op)) _ (.cons htm hts)
                (fitTogether_cons.mpr ⟨hfitsm, hfitsrest⟩)
              have hsimplify : (simplify dim (some slice) (.slice op :: operands)).1 =
                  (simplify dim (some (sliceTo slice op)) operands).1 := by
                rw [simplify, if_pos hm]
              have hmerges : merges dim (some slice) (.slice op :: operands) =
                  .slices slice op :: merges dim (some (sliceTo slice op)) operands := by
                rw [merges, if_pos hm]
              refine ⟨us, hsimplify ▸ hus.eval_eq, hus.fits, fun hexact => ?_, fun hunit => ?_, fun s hs => ?_⟩
              · rw [hmerges] at hexact
                obtain ⟨hhead, htail⟩ := forall_mem_cons.mp hexact
                exact ((hlines hhead).append hd (Lines.refl hfitsrest)).trans (hus.lines htail)
              · rw [hmerges] at hunit
                have hle' := hus.total_le (forall_mem_cons.mp hunit).2
                rw [total_cons] at hle'
                rw [total_cons, total_cons]
                omega
              · cases hs
                obtain ⟨limit, u, rest, hflat, hle, htaken⟩ := first_of_merged (hus.first _ rfl) ht ht' hm hdim
                exact ⟨limit, u, rest, hflat, hle.1.trans hle.2, htaken⟩
          · obtain ⟨us, hus⟩ := ih (some op) _ hts hfitsrest
            refine ⟨_, hus.keep hd ht hfitst ?_ ?_ fun s hs => by rw [some.inj hs]⟩
            · rw [simplify, if_neg hm]
              rfl
            · rw [merges, if_neg hm]
        | wrap op =>
          have hdims := length_dims_of_fits ht hfits mem_cons_self
          have hdim : dim < slice.dims.length := hdims.symm ▸ hd
          cases hm : wrapMerges dim slice op with
          | none =>
            obtain ⟨us, hus⟩ := hkeep (.wrap op) _ nofun hts hfitsrest
            refine ⟨_, hus.keep hd ht hfitst ?_ ?_ fun s hs => by rw [some.inj hs]⟩
            · rw [simplify_wrap_of_none hm]
              rfl
            · rw [merges_wrap_of_none hm]
              rfl
          | some wrapSlice =>
            cases hts with
            | cons hw hts =>
              obtain ⟨hfitsw, hfitsrest⟩ := fitTogether_cons.mp hfitsrest
              obtain ⟨tm, rest, htm, hrest, hfitsm, hle, htaken, hlines⟩ := lines_merge_wrap ht hw hm hdim hd
                (fitTogether_cons.mpr ⟨hfitst, hfitsw⟩)
              obtain ⟨us, hus⟩ := ih none _ hts hfitsrest
              have hsimplify : (simplify dim (some slice) (.wrap op :: operands)).1 =
                  .operand (.slice (sliceTo slice wrapSlice)) :: .wrapRest op ::
                    (simplify dim none operands).1 := by
                rw [simplify, hm]
              have hmerges : merges dim (some slice) (.wrap op :: operands) =
                  .wrap slice op wrapSlice :: merges dim none operands := by
                rw [merges, hm]
              have hlines' := fun hexact hall => ((hlines hexact).append hd (Lines.refl hfitsrest)).trans
                ((Lines.refl hfitsm).append hd (hus.lines hall))
              have hfitsus : FitTogether dim shape ((tm :: rest) ++ us.flatten) :=
                fitTogether_append.mpr ⟨hfitsm, hus.fits⟩
              refine ⟨[tm] :: rest :: us, hsimplify ▸ .cons ?_ (.cons hrest hus.eval_eq), hfitsus,
                fun hexact => ?_, fun hunit => ?_, fun s hs => ?_⟩
              · rw [NewOperand.eval, ConcatOperand.eval, htm]
                rfl
              · rw [hmerges] at hexact
                obtain ⟨hhead, htail⟩ := forall_mem_cons.mp hexact
                exact hlines' hhead htail
              · rw [hmerges] at hunit
                obtain ⟨hhead, htail⟩ := forall_mem_cons.mp hunit
                have hle' := hus.total_le htail
                have htotal := (hlines (.inl hhead)).total_eq
                rw [total_cons, total_cons, total_nil, total_cons] at htotal
                rw [flatten_cons, flatten_cons, singleton_append, total_cons, total_append, total_cons, total_cons]
                omega
              · cases hs
                exact ⟨_, tm, _, rfl, hle, htaken⟩
        | value v =>
          obtain ⟨us, hus⟩ := hkeep (.value v) _ nofun hts hfitsrest
          exact ⟨_, hus.keep hd ht hfitst rfl rfl fun s hs => by rw [some.inj hs]⟩

/-! ### What the elements tell -/

theorem border_of_shape {present : Bool} {start limit : Int} {x' : Tensor α} {sl : List (Tensor α)}
    (h : border present d start limit x = some sl) (hx : x'.shape = x.shape) :
    ∃ sl', border present d start limit x' = some sl' ∧ sl'.map Tensor.shape = sl.map Tensor.shape := by
  rw [border] at h
  rw [border, hx]
  split at h
  · rename_i hpresent
    obtain ⟨z, hz, rfl⟩ := map_eq_some_iff.mp h
    obtain ⟨z', hz', hshape⟩ := slice_of_shape hz hx
    refine ⟨[z'], by rw [if_pos hpresent, hz', map_some], ?_⟩
    rw [map_singleton, map_singleton, hshape]
  · rename_i hpresent
    cases h
    exact ⟨[], if_neg hpresent, rfl⟩

theorem eval_of_shapes (henv : ∀ v, (env' v).shape = (env v).shape) (h : op.eval env = some t) :
    ∃ t', op.eval env' = some t' ∧ t'.shape = t.shape := by
  cases op with
  | slice op => exact slice_of_shape h (henv op.operand)
  | value v =>
    cases h
    exact ⟨env' v, rfl, henv v⟩
  | wrap op =>
    obtain ⟨x, hx, hlower⟩ := bind_eq_some_iff.mp h
    obtain ⟨x', hx', hshape⟩ : ∃ x', op.operand.eval env' = some x' ∧ x'.shape = x.shape := by
      cases hop : op.operand with
      | slice s =>
        rw [hop] at hx
        exact slice_of_shape hx (henv s.operand)
      | value v =>
        rw [hop] at hx
        cases hx
        exact ⟨env' v, rfl, henv v⟩
    obtain ⟨sl0, hsl0, hlower⟩ := bind_eq_some_iff.mp hlower
    obtain ⟨sl1, hsl1, hcat⟩ := bind_eq_some_iff.mp hlower
    obtain ⟨sl0', hsl0', hshape0⟩ := border_of_shape hsl0 hshape
    obtain ⟨sl1', hsl1', hshape1⟩ := border_of_shape hsl1 hshape
    have hshapes : (sl0' ++ x' :: sl1').map Tensor.shape = (sl0 ++ x :: sl1).map Tensor.shape := by
      rw [map_append, map_append, map_cons, map_cons, hshape0, hshape1, hshape]
    obtain ⟨z, hz, hzshape⟩ := concatenate_of_shapes hcat hshapes
    refine ⟨z, bind_eq_some_iff.mpr ⟨x', hx', ?_⟩, hzshape⟩
    rw [lowerWrap, hshape, hsl0', hsl1']
    exact hz

theorem evals_of_shapes (henv : ∀ v, (env' v).shape = (env v).shape) {ops : List ConcatOperand}
    (h : Forall₂ (fun op t => ConcatOperand.eval env op = some t) ops ts) :
    ∃ ts', Forall₂ (fun op t => ConcatOperand.eval env' op = some t) ops ts' ∧
      ts'.map Tensor.shape = ts.map Tensor.shape := by
  induction h with
  | nil => exact ⟨[], .nil, rfl⟩
  | cons ht _ ih =>
    obtain ⟨t', ht', hshape⟩ := eval_of_shapes henv ht
    obtain ⟨ts', hts', hshapes⟩ := ih
    exact ⟨t' :: ts', .cons ht' hts', by rw [map_cons, map_cons, hshape, hshapes]⟩

theorem fits_of_shapes {ts ts' : List (Tensor α)} (h : FitTogether dim shape ts)
    (hshapes : ts'.map Tensor.shape = ts.map Tensor.shape) : FitTogether dim shape ts' := by
  intro t' ht'
  have hmem : t'.shape ∈ ts.map Tensor.shape := hshapes ▸ mem_map_of_mem ht'
  obtain ⟨t, ht, hshape⟩ := mem_map.mp hmem
  rw [← hshape]
  exact h t ht

/-- Whatever the values are, the new operands have the same elements. -/
def Agrees (α : Type) (shapes : Nat → List Nat) (shape : List Nat) (dim : Nat) (cur : Option SliceOp)
    (operands : List ConcatOperand) : Prop :=
  ∀ (env : Nat → Tensor α) (ts : List (Tensor α)) (us : List (List (Tensor α))),
    (∀ v, (env v).shape = shapes v) → FitTogether dim shape ts →
      List.Forall₂ (fun op t => ConcatOperand.eval env op = some t) (pending cur operands) ts →
        List.Forall₂ (fun op u => NewOperand.eval env op = some u) (simplify dim cur operands).1 us →
          Lines dim shape ts us.flatten

theorem Agrees.of_keep {operands operands' : List ConcatOperand}
    (h : Agrees α (fun v => (env v).shape) shape dim cur operands) (hd : dim < shape.length)
    (hop : op.eval env = some t) (hfits : FitTogether dim shape [t])
    (hsimplify : (simplify dim cur operands).1 = .operand op :: (simplify dim cur' operands').1)
    (hpending : pending cur operands = op :: pending cur' operands') :
    Agrees α (fun v => (env v).shape) shape dim cur' operands' := by
  intro env' ts us henv hfitsts hts hus
  obtain ⟨t', ht', hshape⟩ := eval_of_shapes henv hop
  have hfits' : FitTogether dim shape [t'] := fits_of_shapes hfits (by
    rw [map_singleton, map_singleton, hshape])
  have hlines := h env' (t' :: ts) ([t'] :: us) henv (fitTogether_cons.mpr ⟨hfits', hfitsts⟩)
    (hpending ▸ .cons ht' hts) (by
      rw [hsimplify]
      refine .cons ?_ hus
      rw [NewOperand.eval, ht']
      rfl)
  exact Lines.cancel hd (Lines.refl hfits') hlines

theorem within_line {shape' : List Nat} (hshape : shape'.set dim 0 = shape.set dim 0) (hempty : 0 ∉ shape.set dim 1)
    {k : Nat} (hk : k < coord shape' dim) : Within shape' (update (fun _ => 0) dim k) := by
  intro d hd
  by_cases hdd : d = dim
  · rw [hdd, update_self]
    exact hk
  · rw [update_of_ne hdd]
    refine pos_of_ne_zero fun hzero => hempty ?_
    have hset := congrArg (set · dim 1) hshape
    simp only [set_set] at hset
    have hd₁ : d < (shape'.set dim 1).length := by rwa [length_set]
    have hcoord := coord_eq_getElem hd₁
    rw [coord_set_of_ne hdd, hzero] at hcoord
    rw [hcoord, ← hset]
    exact getElem_mem hd₁

theorem exact_of_agrees_slices [Nontrivial α] {op : SliceOp} (hd : dim < shape.length) (ht : slice.eval env = some t)
    (ht' : op.eval env = some t') (hts : Forall₂ (fun op t => ConcatOperand.eval env op = some t) operands ts)
    (hfits : FitTogether dim shape (t :: t' :: ts)) (hm : canMergeSlices dim slice op)
    (hunit : ∀ m ∈ merges dim (some (sliceTo slice op)) operands, m.WrapUnit dim)
    (h : Agrees α (fun v => (env v).shape) shape dim (some slice) (.slice op :: operands)) :
    (Merge.slices slice op).Exact dim (0 ∈ shape.set dim 1) := by
  have hsimplify : (simplify dim (some slice) (.slice op :: operands)).1 =
      (simplify dim (some (sliceTo slice op)) operands).1 := by
    rw [simplify, if_pos hm]
  have hrank : dim < slice.dims.length := by
    rw [length_dims_of_fits ht hfits mem_cons_self]
    exact hd
  obtain ⟨hfitst, hfitsrest⟩ := fitTogether_cons.mp hfits
  obtain ⟨hfitst', hfitsts⟩ := fitTogether_cons.mp hfitsrest
  -- the merged slice has as many positions as both
  have hsizes : ∀ env' : Nat → Tensor α, (∀ v, (env' v).shape = (env v).shape) → ∃ t t' ts u rest limit,
      (Lines dim shape (t :: t' :: ts) (u :: rest)) ∧ slice.eval env' = some t ∧ op.eval env' = some t' ∧
        ((sliceTo slice op).dim dim).size = (slice.dim dim).size + (op.dim dim).size ∧
          (op.dim dim).limit ≤ limit ∧ TakenAlong dim (source slice) (env' slice.operand)
            ⟨(slice.dim dim).start, limit, (slice.dim dim).stride⟩ u := by
    intro env' henv
    obtain ⟨s, hs, hsshape⟩ := eval_of_shapes henv (show ConcatOperand.eval env (.slice slice) = some t from ht)
    obtain ⟨s', hs', hsshape'⟩ := eval_of_shapes henv (show ConcatOperand.eval env (.slice op) = some t' from ht')
    obtain ⟨ss, hss, hshapes⟩ := evals_of_shapes henv hts
    have hfitss : FitTogether dim shape (s :: s' :: ss) := fits_of_shapes hfits (by
      rw [map_cons, map_cons, map_cons, map_cons, hsshape, hsshape', hshapes])
    obtain ⟨hfit, hfitrest⟩ := fitTogether_cons.mp hfitss
    obtain ⟨hfit', hfitrest⟩ := fitTogether_cons.mp hfitrest
    obtain ⟨tm, htm, hfitm, hle, -⟩ := lines_merge_slices hs hs' hm hrank
      (fitTogether_cons.mpr ⟨hfit, hfit'⟩)
    obtain ⟨us, hus⟩ := exists_simplified hd operands (some (sliceTo slice op)) (tm :: ss) (.cons htm hss)
      (fitTogether_cons.mpr ⟨hfitm, hfitrest⟩)
    obtain ⟨limit, u, rest, hflat, hlimit, htaken⟩ := first_of_merged (hus.first _ rfl) hs hs' hm hrank
    have hlines := h env' (s :: s' :: ss) us henv hfitss (.cons hs (.cons hs' hss))
      (hsimplify ▸ hus.eval_eq)
    have htotal := hus.total_le hunit
    have hlen := dims_length_eq hs hs' (canMergeSlices_spec hm).1
    rw [← hlines.total_eq, total_cons, total_cons, total_cons] at htotal
    rw [coord_eval hs hrank, coord_eval hs' (hlen.symm ▸ hrank),
      coord_eval htm ((length_sliceTo hlen).symm ▸ hrank)] at htotal hle
    rw [hflat] at hlines
    exact ⟨s, s', ss, u, rest, limit, hlines, hs, hs', by omega, hlimit.2, htaken⟩
  obtain ⟨-, -, -, -, -, -, -, -, -, hsize, -⟩ := hsizes env fun _ => rfl
  by_cases hempty : 0 ∈ shape.set dim 1
  · exact .inr (.inr ⟨hempty, hsize.symm⟩)
  by_cases hzero : (op.dim dim).size = 0
  · exact .inl hzero
  refine .inr (.inl ?_)
  obtain ⟨hsame, hdims⟩ := canMergeSlices_spec hm
  obtain ⟨hlimit, hstride⟩ := hdims hrank
  -- the first position of the second slice is marked
  obtain ⟨P, Q, hPQ⟩ := exists_pair_ne α
  let g : Nat → α := fun j => if j = (op.dim dim).start.toNat then Q else P
  obtain ⟨hslice, -, hok, -⟩ := eval_slice ht
  obtain ⟨-, -, hok', -⟩ := eval_slice ht'
  have hlen := dims_length_eq ht ht' hsame
  obtain ⟨h₀, -, -, hk⟩ := hok dim hrank
  obtain ⟨h₀', -, -, -⟩ := hok' dim (hlen.symm ▸ hrank)
  have henv : ∀ v, (update env slice.operand
      ⟨(env slice.operand).shape, fun idx => g (coord idx dim)⟩ v).shape = (env v).shape := by
    intro v
    by_cases hv : v = slice.operand
    · rw [hv, update_self]
    · rw [update_of_ne hv]
  obtain ⟨s, s', ss, u, rest, limit, hlines, hs, hs', -, hlimitLe, htaken⟩ := hsizes _ henv
  have htaken' := takenAlong_of_sameBut hs' hsame hlen (hlen.symm ▸ hrank)
  have hcs := coord_eval hs hrank
  have hcs' := coord_eval hs' (hlen.symm ▸ hrank)
  rw [update_self] at htaken htaken'
  have hu : (slice.dim dim).size < coord u.shape dim := by
    have hle := size_le_of_limit (a := (slice.dim dim).start) hk hlimitLe
    rw [dim_sliceTo_self hlen hrank] at hsize
    rw [htaken.size_eq]
    omega
  have hc : Within (shape.set dim (total dim (s :: s' :: ss)))
      (update (fun _ => 0) dim (slice.dim dim).size) := by
    refine within_line (set_set ..) hempty ?_
    rw [coord_set_self hd, total_cons, total_cons, hcs, hcs']
    omega
  have hat := hlines.pieceAt_eq _ hc
  have hs₀ : 0 < coord s'.shape dim := by omega
  have hcw' := within_line (hlines.fits_left s' (mem_cons_of_mem _ mem_cons_self)) hempty hs₀
  have hcw := within_line (hlines.fits_right u mem_cons_self) hempty hu
  rw [pieceAt, update_self, hcs, if_neg (lt_irrefl _), Nat.sub_self, update_idem, pieceAt,
    update_self, if_pos hs₀, pieceAt, update_self, if_pos hu] at hat
  have hread := some.inj hat
  have hmark : ∀ (k : Nat) (c : Nat → Nat), (Tensor.mk (env slice.operand).shape fun idx =>
      g (coord idx dim)).read (taken dim (source slice) k c) = g k := by
    intro k c
    rw [read_mark (hslice ▸ hrank), taken, if_pos rfl]
  rw [htaken'.read_eq _ hcw', htaken.read_eq _ hcw, hmark, hmark, update_self, update_self] at hread
  have hsrc : (op.dim dim).source 0 = (op.dim dim).start.toNat := by
    rw [SliceDim.source, Nat.cast_zero, zero_mul, add_zero]
  have hfirst : SliceDim.source ⟨(slice.dim dim).start, limit, (slice.dim dim).stride⟩ (slice.dim dim).size =
      (op.dim dim).start.toNat := by
    by_contra hne
    simp only [g, hsrc, if_pos rfl, if_neg hne] at hread
    exact hPQ hread.symm
  change ((slice.dim dim).start + (slice.dim dim).size * (slice.dim dim).stride).toNat = _ at hfirst
  have hnonneg : 0 ≤ ((slice.dim dim).size : Int) * (slice.dim dim).stride :=
    mul_nonneg (Int.natCast_nonneg _) hk.le
  exact ⟨(slice.dim dim).size, by rw [mul_comm]; omega⟩

theorem Agrees.of_slices {op : SliceOp}
    (h : Agrees α (fun v => (env v).shape) shape dim (some slice) (.slice op :: operands)) (hd : dim < shape.length)
    (ht : slice.eval env = some t) (ht' : op.eval env = some t') (hfits : FitTogether dim shape [t, t'])
    (hm : canMergeSlices dim slice op) (hexact : (Merge.slices slice op).Exact dim (0 ∈ shape.set dim 1)) :
    Agrees α (fun v => (env v).shape) shape dim (some (sliceTo slice op)) operands := by
  intro env' ts us henv hfitsts hts hus
  obtain ⟨s, hs, hsshape⟩ := eval_of_shapes henv (show ConcatOperand.eval env (.slice slice) = some t from ht)
  obtain ⟨s', hs', hsshape'⟩ := eval_of_shapes henv (show ConcatOperand.eval env (.slice op) = some t' from ht')
  have hfit : FitTogether dim shape [s, s'] := fits_of_shapes hfits (by
    rw [map_cons, map_singleton, map_cons, map_singleton, hsshape, hsshape'])
  have hdim : dim < slice.dims.length := by
    rw [length_dims_of_fits ht hfits mem_cons_self]
    exact hd
  obtain ⟨tm, htm, -, -, hlines⟩ := lines_merge_slices hs hs' hm hdim hfit
  cases hts with
  | cons htm' hss =>
    rename_i tm' ss
    cases htm.symm.trans htm'
    have hfitss := (fitTogether_cons.mp hfitsts).2
    have hboth : Lines dim shape (s :: s' :: ss) us.flatten :=
      h env' (s :: s' :: ss) us henv (fitTogether_append.mpr ⟨hfit, hfitss⟩) (.cons hs (.cons hs' hss)) (by
        rw [simplify, if_pos hm]
        exact hus)
    exact ((hlines hexact).symm.append hd (Lines.refl hfitss)).trans hboth

theorem Agrees.of_wrap {op : WrapOp}
    (h : Agrees α (fun v => (env v).shape) shape dim (some slice) (.wrap op :: operands))
    (hd : dim < shape.length) (ht : slice.eval env = some t) (ht' : op.eval env = some t')
    (hfits : FitTogether dim shape [t, t']) (hm : wrapMerges dim slice op = some other)
    (hunit : (other.dim dim).stride = 1) : Agrees α (fun v => (env v).shape) shape dim none operands := by
  intro env' ts us henv hfitsts hts hus
  obtain ⟨s, hs, hsshape⟩ := eval_of_shapes henv (show ConcatOperand.eval env (.slice slice) = some t from ht)
  obtain ⟨s', hs', hsshape'⟩ := eval_of_shapes henv (show ConcatOperand.eval env (.wrap op) = some t' from ht')
  have hfit : FitTogether dim shape [s, s'] := fits_of_shapes hfits (by
    rw [map_cons, map_singleton, map_cons, map_singleton, hsshape, hsshape'])
  have hdim : dim < slice.dims.length := by
    rw [length_dims_of_fits ht hfits mem_cons_self]
    exact hd
  obtain ⟨tm, rest, htm, hrest, -, -, -, hlines⟩ := lines_merge_wrap hs hs' hm hdim hd hfit
  have hboth : Lines dim shape ([s, s'] ++ ts) ((tm :: rest) ++ us.flatten) :=
    h env' (s :: s' :: ts) ([tm] :: rest :: us) henv (fitTogether_append.mpr ⟨hfit, hfitsts⟩)
      (.cons hs (.cons hs' hts)) (by
        rw [simplify, hm]
        refine .cons ?_ (.cons hrest hus)
        rw [NewOperand.eval, ConcatOperand.eval, htm]
        rfl)
  exact Lines.cancel hd (hlines (.inl hunit)) hboth

theorem exact_of_agrees [Nontrivial α] (hd : dim < shape.length) (operands : List ConcatOperand)
    (cur : Option SliceOp) (ts : List (Tensor α))
    (hts : Forall₂ (fun op t => ConcatOperand.eval env op = some t) (pending cur operands) ts)
    (hfits : FitTogether dim shape ts) (hunit : ∀ m ∈ merges dim cur operands, m.WrapUnit dim)
    (h : Agrees α (fun v => (env v).shape) shape dim cur operands) :
    ∀ m ∈ merges dim cur operands, m.Exact dim (0 ∈ shape.set dim 1) := by
  induction operands generalizing cur ts with
  | nil =>
    cases cur with
    | none | some slice => nofun
  | cons operand operands ih =>
    cases cur with
    | none =>
      cases operand with
      | slice op => exact ih (some op) ts hts hfits hunit h
      | wrap op | value v =>
        cases hts with
        | cons ht hts =>
          obtain ⟨hfitst, hfits⟩ := fitTogether_cons.mp hfits
          exact ih none _ hts hfits hunit (h.of_keep hd ht hfitst rfl rfl)
    | some slice =>
      cases hts with
      | cons ht hts =>
        obtain ⟨hfitst, hfitsrest⟩ := fitTogether_cons.mp hfits
        have hdims := length_dims_of_fits ht hfits mem_cons_self
        have hdim : dim < slice.dims.length := hdims.symm ▸ hd
        cases operand with
        | slice op =>
          by_cases hm : canMergeSlices dim slice op
          · rw [merges, if_pos hm] at hunit ⊢
            cases hts with
            | cons ht' hts =>
              obtain ⟨hfitst', hfitsrest'⟩ := fitTogether_cons.mp hfitsrest
              have htail := (forall_mem_cons.mp hunit).2
              have hexact := exact_of_agrees_slices hd ht ht' hts hfits hm htail h
              have hpair := fitTogether_cons.mpr ⟨hfitst, hfitst'⟩
              obtain ⟨tm, htm, hfitsm, -, -⟩ := lines_merge_slices ht ht' hm hdim hpair
              exact forall_mem_cons.mpr ⟨hexact, ih _ _ (.cons htm hts)
                (fitTogether_cons.mpr ⟨hfitsm, hfitsrest'⟩) htail (h.of_slices hd ht ht' hpair hm hexact)⟩
          · have hsimplify : (simplify dim (some slice) (.slice op :: operands)).1 =
                .operand (.slice slice) :: (simplify dim (some op) operands).1 := by
              rw [simplify, if_neg hm]
              rfl
            rw [merges, if_neg hm] at hunit ⊢
            exact ih (some op) _ hts hfitsrest hunit (h.of_keep hd ht hfitst hsimplify rfl)
        | wrap op =>
          cases hts with
          | cons ht' hts =>
            obtain ⟨hfitst', hfitsrest'⟩ := fitTogether_cons.mp hfitsrest
            cases hm : wrapMerges dim slice op with
            | none =>
              rw [merges_wrap_of_none hm] at hunit ⊢
              have hrest : Agrees α (fun v => (env v).shape) shape dim none (.wrap op :: operands) :=
                h.of_keep hd ht hfitst (congrArg Prod.fst (simplify_wrap_of_none hm)) rfl
              exact ih none _ hts hfitsrest' hunit (hrest.of_keep hd ht' hfitst' rfl rfl)
            | some wrapSlice =>
              have hmerges : merges dim (some slice) (.wrap op :: operands) =
                  .wrap slice op wrapSlice :: merges dim none operands := by
                rw [merges, hm]
              rw [hmerges] at hunit ⊢
              obtain ⟨hhead, htail⟩ := forall_mem_cons.mp hunit
              exact forall_mem_cons.mpr ⟨.inl hhead, ih none _ hts hfitsrest' htail
                (h.of_wrap hd ht ht' (fitTogether_cons.mpr ⟨hfitst, hfitst'⟩) hm hhead)⟩
        | value v =>
          cases hts with
          | cons ht' hts =>
            obtain ⟨hfitst', hfitsrest'⟩ := fitTogether_cons.mp hfitsrest
            have hrest : Agrees α (fun v => (env v).shape) shape dim none (.value v :: operands) :=
              h.of_keep hd ht hfitst rfl rfl
            exact ih none _ hts hfitsrest' hunit (hrest.of_keep hd ht' hfitst' rfl rfl)

/-! ### The result -/

theorem exists_head (dim : Nat) (slice : SliceOp) (operands : List ConcatOperand) : ∃ s rest,
    (simplify dim (some slice) operands).1 = .operand (.slice s) :: rest := by
  induction operands generalizing slice with
  | nil => exact ⟨slice, [], rfl⟩
  | cons operand operands ih =>
    cases operand with
    | slice op =>
      rw [simplify]
      split
      · exact ih _
      · exact ⟨slice, _, rfl⟩
    | wrap op =>
      rw [simplify]
      split
      · exact ⟨_, _, rfl⟩
      · exact ⟨slice, _, rfl⟩
    | value v => exact ⟨slice, _, rfl⟩

theorem flatten_ne_nil (hne : operands ≠ [])
    (hus : Forall₂ (fun op u => NewOperand.eval env op = some u) (simplify dim none operands).1 us) :
    us.flatten ≠ [] := by
  have hhead : ∃ op rest, (simplify dim none operands).1 = .operand op :: rest := by
    obtain ⟨operand, operands, rfl⟩ := exists_cons_of_ne_nil hne
    cases operand with
    | slice op =>
      obtain ⟨s, rest, hrest⟩ := exists_head dim op operands
      exact ⟨.slice s, rest, hrest⟩
    | wrap op => exact ⟨.wrap op, _, rfl⟩
    | value v => exact ⟨.value v, _, rfl⟩
  obtain ⟨op, rest, hrest⟩ := hhead
  rw [hrest] at hus
  cases hus with
  | cons hu hus =>
    obtain ⟨t, -, rfl⟩ := map_eq_some_iff.mp hu
    exact cons_ne_nil _ _

theorem concatSliceSimplify_eq {newOperands : List NewOperand}
    (h : concatSliceSimplify dim operands = some newOperands) : newOperands = (simplify dim none operands).1 := by
  rw [concatSliceSimplify] at h
  split at h
  · exact (some.inj h).symm
  · cases h

theorem eval_original (hy : original env dim operands = some y) : ∃ ts, concatenate dim ts = some y ∧
      Forall₂ (fun op t => ConcatOperand.eval env op = some t) operands ts ∧ operands ≠ [] ∧
        dim < y.shape.length ∧ FitTogether dim y.shape ts := by
  obtain ⟨ts, hts, hcat⟩ := bind_eq_some_iff.mp hy
  obtain ⟨hd, hne, hfits, -⟩ := pieces_of_concatenate hcat
  have hevals := allSome_map_iff.mp hts
  refine ⟨ts, hcat, hevals, fun hnil => hne ?_, hd, hfits⟩
  rw [hnil] at hevals
  exact forall₂_nil_left_iff.mp hevals

theorem shape_of_original (henv : ∀ v, (env' v).shape = (env v).shape) {y' : Tensor α}
    (hy : original env dim operands = some y) (hy' : original env' dim operands = some y') : y'.shape = y.shape := by
  obtain ⟨ts, hts, hcat⟩ := bind_eq_some_iff.mp hy
  obtain ⟨ts', hts', hshapes⟩ := evals_of_shapes henv (allSome_map_iff.mp hts)
  obtain ⟨y'', hy'', hshape⟩ := concatenate_of_shapes hcat hshapes
  have horiginal : original env' dim operands = some y'' :=
    bind_eq_some_iff.mpr ⟨ts', allSome_map_iff.mpr hts', hy''⟩
  rw [some.inj (hy'.symm.trans horiginal), hshape]

theorem preserved_of_exact (hy : original env dim operands = some y)
    (hexact : ∀ m ∈ merges dim none operands, m.Exact dim (0 ∈ y.shape.set dim 1)) :
    ∃ z, newConcat env dim (simplify dim none operands).1 = some z ∧ Same z y := by
  obtain ⟨ts, hcat, hts, hne, hd, hfits⟩ := eval_original hy
  obtain ⟨us, hus⟩ := exists_simplified hd operands none ts hts hfits
  obtain ⟨z, hz, hsame⟩ := (hus.lines hexact).concatenate (flatten_ne_nil hne hus.eval_eq) hcat
  exact ⟨z, bind_eq_some_iff.mpr ⟨us, allSome_map_iff.mpr hus.eval_eq, hz⟩, hsame⟩

theorem agrees_of_preserves (hy : original env dim operands = some y)
    (h : Preserves α (fun v => (env v).shape) dim operands (simplify dim none operands).1) :
    Agrees α (fun v => (env v).shape) y.shape dim none operands := by
  intro env' ts us henv hfits hts hus
  obtain ⟨ts₀, -, hts₀, hne, hd, -⟩ := eval_original hy
  have htsne : ts ≠ [] := fun hnil => hne (by
    rw [hnil] at hts
    exact forall₂_nil_right_iff.mp hts)
  obtain ⟨y', hy', hpieces⟩ := concatenate_pieces hd htsne hfits
  obtain ⟨z, hz, hsame⟩ := h env' y' henv (bind_eq_some_iff.mpr ⟨ts, allSome_map_iff.mpr hts, hy'⟩)
  obtain ⟨us', hus', hcat⟩ := bind_eq_some_iff.mp hz
  cases (allSome_map_iff.mpr hus).symm.trans hus'
  have hshape : y'.shape.set dim 0 = y.shape.set dim 0 := by
    rw [hpieces.shape_eq, set_set]
  have hlt : dim < y'.shape.length := by
    rw [hpieces.shape_eq, length_set]
    exact hd
  have hold := (Lines.of_concatenate hy').symm
  have hnew := Lines.of_concatenate hcat
  rw [hsame.shape_eq] at hnew
  exact ((hold.trans (Lines.of_same hlt hsame)).trans hnew).of_shape hshape

/-- The concatenation is preserved where what is merged is in step, and only there if no slice with a stride is
wrapped. -/
theorem concatSliceSimplify_preserves [Nontrivial α] {operands : List ConcatOperand}
    {newOperands : List NewOperand} {y : Tensor α}
    (hnew : concatSliceSimplify dim operands = some newOperands) (hy : original env dim operands = some y) :
    ((∀ m ∈ merges dim none operands, m.Exact dim (0 ∈ y.shape.set dim 1)) →
      Preserves α (fun v => (env v).shape) dim operands newOperands) ∧
    ((∀ m ∈ merges dim none operands, m.WrapUnit dim) → (Preserves α (fun v => (env v).shape) dim operands newOperands ↔
        ∀ m ∈ merges dim none operands, m.Exact dim (0 ∈ y.shape.set dim 1))) := by
  rw [concatSliceSimplify_eq hnew]
  have hsuff : (∀ m ∈ merges dim none operands, m.Exact dim (0 ∈ y.shape.set dim 1)) →
      Preserves α (fun v => (env v).shape) dim operands (simplify dim none operands).1 := by
    intro hexact env' y' henv hy'
    exact preserved_of_exact hy' (by rwa [shape_of_original henv hy hy'])
  refine ⟨hsuff, fun hunit => ⟨fun h => ?_, hsuff⟩⟩
  obtain ⟨ts, -, hts, -, hd, hfits⟩ := eval_original hy
  exact exact_of_agrees hd operands none ts hts hfits hunit (agrees_of_preserves hy h)

end

/-! ### Slices of a row -/

/-- A row of six elements. -/
def row : Nat → Tensor Int := fun _ => ⟨[6], fun idx => (coord idx 0 : Int)⟩

def rowSlice (start limit stride : Int) : SliceOp := ⟨0, [⟨start, limit, stride⟩]⟩

/-- Two slices, and a wrap whose left part goes on where they stop. -/
def wrapped : List ConcatOperand :=
  [.slice (rowSlice 0 2 1), .slice (rowSlice 2 4 1), .wrap ⟨.slice (rowSlice 3 6 1), 0, 2, 1⟩]

def wrappedMerged : List NewOperand :=
  [.operand (.slice (rowSlice 0 6 1)), .wrapRest ⟨.slice (rowSlice 3 6 1), 0, 2, 1⟩]

theorem concatSliceSimplify_preserves_wrapped : concatSliceSimplify 0 wrapped = some wrappedMerged ∧
    Preserves Int (fun v => (row v).shape) 0 wrapped wrappedMerged := by
  have hnew : concatSliceSimplify 0 wrapped = some wrappedMerged := by rfl
  obtain ⟨y, hy⟩ : ∃ y, original row 0 wrapped = some y := ⟨_, rfl⟩
  refine ⟨hnew, (concatSliceSimplify_preserves hnew hy).1 ?_⟩
  have hmerges : merges 0 none wrapped = [.slices (rowSlice 0 2 1) (rowSlice 2 4 1),
      .wrap (rowSlice 0 4 1) ⟨.slice (rowSlice 3 6 1), 0, 2, 1⟩ (rowSlice 3 6 1)] := by rfl
  rw [hmerges]
  refine forall_mem_cons.mpr ⟨.inr (.inl ?_), forall_mem_cons.mpr ⟨.inl rfl, nofun⟩⟩
  exact one_dvd _

/-- With a stride the slices follow each other by their bounds and not by their elements. -/
def strided : List ConcatOperand := [.slice (rowSlice 0 3 2), .slice (rowSlice 3 5 2)]

/-- With a stride the whole slice that is wrapped is merged. -/
def stridedWrap : List ConcatOperand :=
  [.slice (rowSlice 0 2 2), .wrap ⟨.slice (rowSlice 2 6 2), 0, 1, 0⟩]

theorem not_concatSliceSimplify_preserves : (∃ newOperands, concatSliceSimplify 0 strided = some newOperands ∧
      ¬Preserves Int (fun v => (row v).shape) 0 strided newOperands) ∧
    ∃ newOperands, concatSliceSimplify 0 stridedWrap = some newOperands ∧
      ¬Preserves Int (fun v => (row v).shape) 0 stridedWrap newOperands := by
  refine ⟨⟨_, rfl, fun h => ?_⟩, ⟨_, rfl, fun h => ?_⟩⟩
  · obtain ⟨z, hz, hsame⟩ := h row _ (fun _ => rfl) rfl
    cases hz
    exact absurd (hsame.get_eq [2] (by decide)) (by decide)
  · obtain ⟨z, hz, hsame⟩ := h row _ (fun _ => rfl) rfl
    cases hz
    exact absurd hsame.shape_eq (by decide)

end EnzymeJax.ConcatSlice
