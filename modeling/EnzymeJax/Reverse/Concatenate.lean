import EnzymeJax.Library.Layout
import EnzymeJax.Library.DataMovement

/-!
# The reverse rule of concatenate

`AutoDiffConcatenateRev` slices the cotangent at the running offset of each operand, constant
operands included, and gives every operand that is not constant its slice.
-/

namespace EnzymeJax

open Tensor Finset List Option

/-- The slice of the cotangent that belongs to an operand at offset `startDim`. -/
def operandSlice (dim startDim : Nat) (shape : List Nat) : List SliceDim :=
  shape.mapIdx fun i (n : Nat) => if i = dim then ⟨startDim, startDim + n, 1⟩ else ⟨0, n, 1⟩

/-- `AutoDiffConcatenateRev` on the operands' shapes and whether they are constant. -/
def reverseConcatenate {R : Type*} (dim : Nat) (inDiffe : Tensor R) :
    Nat → List (List Nat × Bool) → Option (List (Option (Tensor R)))
  | _, [] => some []
  | startDim, (shape, constant) :: operands =>
    let next := startDim + coord shape dim
    if constant then (reverseConcatenate dim inDiffe next operands).map (none :: ·)
    else do
      let res ← Tensor.slice (operandSlice dim startDim shape) inDiffe
      if res.shape = shape then
        let res2 ← reshape shape res
        let rest ← reverseConcatenate dim inDiffe next operands
        some (some res2 :: rest)
      else none

def pairing {R : Type*} [CommRing R] (xs : List (Tensor R)) (bs : List (Option (Tensor R))) : R :=
  (List.zipWith (fun x b => b.elim 0 (dot x)) xs bs).sum

def cotangentShapes (operands : List (List Nat × Bool)) : List (Option (List Nat)) :=
  operands.map fun p => if p.2 then none else some p.1

/-- Constant operands do not move. -/
def ConstantsZero {R : Type*} [Zero R] (operands : List (List Nat × Bool)) (xs : List (Tensor R)) :
    Prop :=
  List.Forall₂ (fun p x => x.shape = p.1 ∧ (p.2 = true → ∀ idx, x.get idx = 0)) operands xs

section

variable {dim startDim total : Nat} {shape : List Nat}

theorem operandSlice_getElem {i : Nat} (hi : i < (operandSlice dim startDim shape).length)
    (hi' : i < shape.length) : (operandSlice dim startDim shape)[i] =
      if i = dim then ⟨startDim, startDim + shape[i], 1⟩ else ⟨0, shape[i], 1⟩ := by
  simp [operandSlice]

theorem operandSlice_ok (htotal : startDim + coord shape dim ≤ total) :
    Forall₂ SliceDim.Ok (operandSlice dim startDim shape) (shape.set dim total) := by
  rw [forall₂_iff_get]
  refine ⟨by simp [operandSlice], fun i hi hi' => ?_⟩
  have hlt : i < shape.length := by simpa using hi'
  rw [get_eq_getElem, get_eq_getElem, operandSlice_getElem hi hlt, getElem_set]
  by_cases heq : i = dim
  · rw [if_pos heq, if_pos heq.symm]
    rw [← heq, coord, getD_eq_getElem _ _ hlt] at htotal
    simp only [SliceDim.Ok]
    omega
  · rw [if_neg heq, if_neg (Ne.symm heq)]
    simp only [SliceDim.Ok]
    omega

theorem operandSlice_size : (operandSlice dim startDim shape).map SliceDim.size = shape := by
  refine ext_getElem (by simp [operandSlice]) fun i hi hi' => ?_
  rw [getElem_map, operandSlice_getElem (by simpa using hi) hi']
  split <;> simp [SliceDim.size]

theorem operandSlice_source {idx : List Nat} (hidx : idx.length = shape.length) :
    zipWith SliceDim.source (operandSlice dim startDim shape) idx = idx.set dim (startDim + coord idx dim) := by
  refine ext_getElem (by simp [operandSlice, hidx]) fun i hi hi' => ?_
  have hi'' : i < idx.length := by simpa using hi'
  rw [getElem_zipWith, operandSlice_getElem (by simp [operandSlice, ← hidx, hi''])
    (hidx ▸ hi''), getElem_set]
  by_cases heq : i = dim
  · have hcoord : coord idx dim = idx[i] := by
      rw [coord, ← heq, getD_eq_getElem _ _ hi'']
    rw [if_pos heq, if_pos heq.symm, hcoord]
    simp only [SliceDim.source]
    omega
  · rw [if_neg heq, if_neg (Ne.symm heq)]
    simp only [SliceDim.source]
    omega

theorem operandSlice_eq {α : Type*} (startDim : Nat) {y : Tensor α} (hy : y.shape = shape.set dim total)
    (htotal : startDim + coord shape dim ≤ total) :
    ∃ res, Tensor.slice (operandSlice dim startDim shape) y = some res ∧ res.shape = shape ∧
      ∀ idx ∈ indices shape, res.get idx = y.get (idx.set dim (startDim + coord idx dim)) := by
  rw [Tensor.slice, if_pos (hy ▸ operandSlice_ok htotal)]
  refine ⟨_, rfl, operandSlice_size, fun idx hidx => ?_⟩
  exact congrArg y.get (operandSlice_source (length_of_mem_indices hidx))

end

section

variable {R : Type*} [CommRing R]

theorem reverseConcatenate_eq {dim total : Nat} (startDim : Nat) {shape : List Nat} {y : Tensor R}
    (hy : y.shape = shape.set dim total) {operands : List (List Nat × Bool)}
    (hshapes : ∀ p ∈ operands, p.1.set dim 0 = shape.set dim 0)
    (htotal : startDim + ((operands.map Prod.fst).map (coord · dim)).sum ≤ total) :
    ∃ bs, reverseConcatenate dim y startDim operands = some bs ∧
      bs.map (Option.map Tensor.shape) = cotangentShapes operands ∧
      ∀ xs, ConstantsZero operands xs → layoutPairing dim y.get startDim xs = pairing xs bs := by
  induction operands generalizing startDim with
  | nil =>
    refine ⟨[], rfl, rfl, fun xs hxs => ?_⟩
    cases hxs
    rfl
  | cons p operands ih =>
    obtain ⟨shape', constant⟩ := p
    obtain ⟨hshape, hshapes⟩ := forall_mem_cons.mp hshapes
    simp only [List.map_cons, List.sum_cons] at htotal
    obtain ⟨bs, hbs, hbsShape, hpairing⟩ :=
      ih (startDim + coord shape' dim) hshapes (by omega)
    have hset : y.shape = shape'.set dim total := by
      have hset := congrArg (set · dim total) hshape
      simp only [set_set] at hset
      rw [hy, hset]
    obtain ⟨res, hres, hresShape, hget⟩ := operandSlice_eq startDim hset (by omega)
    obtain ⟨res2, hres2, hres2Shape, hget2⟩ := reshape_self res
    rw [hresShape] at hres2 hres2Shape hget2
    cases constant with
    | true =>
      refine ⟨none :: bs, ?_, congrArg (none :: ·) hbsShape, fun xs hxs => ?_⟩
      · rw [reverseConcatenate, hbs]
        rfl
      · cases hxs with
        | cons hx hxs =>
          rename_i x xs
          have hzero : ∑ idx ∈ indices x.shape, x.get idx * y.get (idx.set dim (startDim + coord idx dim)) = 0 :=
            sum_eq_zero fun idx _ => by rw [hx.2 rfl, zero_mul]
          rw [layoutPairing, hzero, hx.1, hpairing xs hxs, zero_add]
          exact (zero_add _).symm
    | false =>
      refine ⟨some res2 :: bs, ?_, ?_, fun xs hxs => ?_⟩
      · simp only [reverseConcatenate, Bool.false_eq_true, if_false, hres, hresShape, if_true, hres2,
          hbs, bind_eq_bind, bind_some]
      · rw [List.map_cons, hbsShape, map_some, hres2Shape]
        rfl
      · cases hxs with
        | cons hx hxs =>
          rename_i x xs
          rw [layoutPairing, hx.1, hpairing xs hxs]
          change _ = dot x res2 + pairing xs bs
          rw [dot, hx.1]
          congr 1
          exact sum_congr rfl fun idx hidx => by rw [hget2 idx hidx, hget idx hidx]

end

end EnzymeJax
