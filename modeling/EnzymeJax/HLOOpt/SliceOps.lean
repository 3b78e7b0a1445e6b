import EnzymeJax.Library.Permuted
import EnzymeJax.Library.Pieces

/-!
# Slices of values

The values that ops are applied to are numbered, so that a pattern can tell whether two slices are of one
value.
-/

namespace EnzymeJax

open Tensor List

/-- A slice of the value of a number. -/
structure SliceOp where
  operand : Nat
  dims : List SliceDim

inductive Operand
  | slice (op : SliceOp)
  | value (v : Nat)

def SliceOp.dim (op : SliceOp) (j : Nat) : SliceDim := op.dims.getD j ⟨0, 0, 1⟩

def SliceOp.base (op : SliceOp) (d : Nat) : Nat := (op.dim d).start.toNat

/-- The limit indices are those of the last slice. -/
def sliceTo (lhs last : SliceOp) : SliceOp :=
  ⟨lhs.operand, List.zipWith (fun l r => ⟨l.start, r.limit, l.stride⟩) lhs.dims last.dims⟩

section

variable {α : Type} (env : Nat → Tensor α)

def SliceOp.eval (op : SliceOp) : Option (Tensor α) := slice op.dims (env op.operand)

def Operand.eval : Operand → Option (Tensor α)
  | .slice op => op.eval env
  | .value v => some (env v)

end

section

variable {α : Type} {env : Nat → Tensor α} {t : Tensor α} {op : SliceOp}

theorem eval_slice (h : op.eval env = some t) : op.dims.length = (env op.operand).shape.length ∧
    t.shape = op.dims.map SliceDim.size ∧ (∀ d < op.dims.length, (op.dim d).Ok (coord (env op.operand).shape d)) ∧
        ∀ c, Within t.shape c → t.read c = (env op.operand).read fun d => (op.dim d).source (c d) := by
  obtain ⟨hok, hgathers⟩ := gathers_slice h
  refine ⟨hok.length_eq, hgathers.shape_eq, fun d hd => ?_, fun c hc => ?_⟩
  · rw [SliceOp.dim, getD_eq_getElem _ _ hd, coord_eq_getElem (hok.length_eq ▸ hd)]
    exact (forall₂_iff_get.mp hok).2 d hd (hok.length_eq ▸ hd)
  · rw [hgathers.shape_eq] at hc
    rw [hgathers.read_eq (by rw [length_map, hok.length_eq]) hc]
    refine read_congr _ fun d hd => ?_
    have hd' : d < op.dims.length := hok.length_eq ▸ hd
    rw [sliceSource, SliceOp.dim, getElem?_eq_getElem hd', getD_eq_getElem _ _ hd']
    rfl

theorem coord_eval (h : op.eval env = some t) {d : Nat} (hd : d < op.dims.length) :
    coord t.shape d = (op.dim d).size := by
  obtain ⟨-, hshape, -, -⟩ := eval_slice h
  rw [hshape, coord_map _ _ hd, SliceOp.dim, getD_eq_getElem _ _ hd]

theorem dim_sliceTo {lhs last : SliceOp} {j : Nat} (hl : j < lhs.dims.length) (hr : j < last.dims.length) :
    (sliceTo lhs last).dim j = ⟨(lhs.dim j).start, (last.dim j).limit, (lhs.dim j).stride⟩ := by
  rw [sliceTo, SliceOp.dim, SliceOp.dim, SliceOp.dim, getD_eq_getElem _ _ hl,
    getD_eq_getElem _ _ hr, getD_eq_getElem _ _ (by rw [length_zipWith]; omega),
    getElem_zipWith]

theorem eval_slice_of_ok (hlen : op.dims.length = (env op.operand).shape.length)
    (hok : ∀ d < op.dims.length, (op.dim d).Ok (coord (env op.operand).shape d)) : ∃ t, op.eval env = some t := by
  refine ⟨_, if_pos (forall₂_iff_get.mpr ⟨hlen, fun d hd hd' => ?_⟩)⟩
  have hat := hok d hd
  rwa [SliceOp.dim, getD_eq_getElem _ _ hd, coord_eq_getElem hd'] at hat

end

end EnzymeJax
