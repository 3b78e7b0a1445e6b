import EnzymeJax.Communication.Lowering
import EnzymeJax.HLOOpt.SliceOps
import EnzymeJax.Library.Beside

/-!
# Widening of wraps and extends

An operand of a concatenation next to a `wrap` or an `extend` is taken to be a slice of the operand of the op, and
the op is made wider by it.
-/

namespace EnzymeJax.Widening

open Tensor

inductive Kind
  | wrap
  | extend
deriving DecidableEq

/-- A `wrap` or an `extend`. -/
structure Edge where
  kind : Kind
  operand : Nat
  lhs : Nat
  rhs : Nat
  dim : Nat

inductive Op
  | slice (op : SliceOp)
  | concatenate (operands : List Nat) (dim : Nat)
  | reshape (operand : Nat)
  | edge (e : Edge)

/-! ### Values -/

section

variable {α : Type}

def Kind.lower : Kind → Nat → Nat → Nat → Tensor α → Option (Tensor α)
  | wrap, dim, lhs, rhs => lowerWrap dim lhs rhs
  | extend, dim, lhs, rhs => lowerExtend dim lhs rhs

def Edge.lower (e : Edge) : Tensor α → Option (Tensor α) := e.kind.lower e.dim e.lhs e.rhs

def Op.operands : Op → List Nat
  | slice op => [op.operand]
  | concatenate operands _ => operands
  | reshape operand => [operand]
  | edge e => [e.operand]

/-- The result, which is of the shape where the op does not determine it. -/
def Op.eval (shape : List Nat) (env : Nat → Tensor α) : Op → Option (Tensor α)
  | slice op => op.eval env
  | concatenate operands dim => Tensor.concatenate dim (operands.map env)
  | reshape operand => Tensor.reshape shape (env operand)
  | edge e => e.lower (env e.operand)

end

/-- The values, with the ops that define them if those are looked at. Operands come before results, and an op has
a result of its shape for operands of theirs. -/
structure Graph where
  defOp : Nat → Option Op
  shape : Nat → List Nat
  lt : ∀ v op, defOp v = some op → ∀ o ∈ op.operands, o < v
  typed : ∀ v op, defOp v = some op → ∀ (α : Type) (env : Nat → Tensor α),
    (∀ o ∈ op.operands, (env o).shape = shape o) → ∃ t, op.eval (shape v) env = some t ∧ t.shape = shape v

structure Graph.Runs {α : Type} (g : Graph) (env : Nat → Tensor α) : Prop where
  shape_eq : ∀ v, (env v).shape = g.shape v
  eval_eq : ∀ v op, g.defOp v = some op → op.eval (g.shape v) env = some (env v)

/-! ### The patterns -/

section

variable (g : Graph)

def isOuterReducingReshape (operand result : Nat) : Bool := g.shape operand = 1 :: g.shape result

def fullDims (shape : List Nat) : List SliceDim := shape.map fun n : Nat => ⟨0, n, 1⟩

/-- The start and limit indices and strides that those of a slice of `operand` are compared with. -/
def sourceDims (x operand : Nat) : Option (List SliceDim) :=
  if operand ≠ x then
    match g.defOp x with
    | some (.slice op) => if operand ≠ op.operand then none else some op.dims
    | _ => some (fullDims (g.shape x))
  else some (fullDims (g.shape x))

/-- `isSliceOf` and `isExtendOf`, with their test along the dimension, which is given the extent of the slice. -/
def isOf (along : Nat → SliceDim → SliceDim → Bool) (dim : Nat) : Nat → Nat → Nat → Bool
  | 0, _, _ => false
  | fuel + 1, x, widenOperand =>
    match g.defOp widenOperand with
    | some (.slice op) =>
      match sourceDims g x op.operand with
      | none => false
      | some dims => (List.range (g.shape x).length).all fun j =>
        let s := op.dims.getD j ⟨0, 0, 1⟩
        let d := dims.getD j ⟨0, 0, 1⟩
        if j ≠ dim then s.start = d.start ∧ s.limit = d.limit ∧ s.stride = d.stride
        else along (coord (g.shape widenOperand) j) s d
    | some (.concatenate widenOperands widenDim) =>
      match g.defOp x with
      | some (.concatenate operands concatDim) =>
        concatDim = widenDim ∧ concatDim ≠ dim ∧ widenOperands.length = operands.length ∧
          (List.zip operands widenOperands).all fun p => isOf along dim fuel p.1 p.2
      | _ => false
    | _ => false

def sliceAlongWrap (widenOperandOnLeft : Bool) (existingOffset : Int) (_ : Nat) (s d : SliceDim) : Bool :=
  s.stride = 1 ∧ d.stride = 1 ∧
    if widenOperandOnLeft then s.limit + existingOffset = d.limit else s.start = d.start + existingOffset

def sliceAlongExtend (widenOperandOnLeft : Bool) (size : Nat) (s d : SliceDim) : Bool :=
  s.stride = 1 ∧ d.stride = 1 ∧ size = 1 ∧
    if widenOperandOnLeft then s.start = d.start else s.limit = d.limit

def isSliceOf (wrapOperand widenOperand dim : Nat) (widenOperandOnLeft : Bool) (existingOffset : Int) : Bool :=
  isOf g (sliceAlongWrap widenOperandOnLeft existingOffset) dim (widenOperand + 1) wrapOperand widenOperand

def isExtendOf (extendOperand widenOperand dim : Nat) (widenOperandOnLeft : Bool) : Bool :=
  isOf g (sliceAlongExtend widenOperandOnLeft) dim (widenOperand + 1) extendOperand widenOperand

/-- The operand and the one next to the op, and by how much the dimension is further, in front of reshapes that
drop a dimension. -/
def behindReshapes (operand neighbour : Nat) : Nat × Nat × Nat :=
  match g.defOp operand, g.defOp neighbour with
  | some (.reshape rsOperand), some (.reshape rsNeighbour) =>
    if isOuterReducingReshape g rsOperand operand ∧ isOuterReducingReshape g rsNeighbour neighbour then
      (rsOperand, rsNeighbour, (g.shape rsNeighbour).length - (g.shape neighbour).length)
    else (operand, neighbour, 0)
  | _, _ => (operand, neighbour, 0)

/-- The values that are compared. -/
def Kind.compared : Kind → Nat → Nat → Nat × Nat × Nat
  | wrap => behindReshapes g
  | extend => fun operand neighbour => (operand, neighbour, 0)

/-- By how much the op becomes wider. The amount there is already is passed as an `int`. -/
def Edge.amount (e : Edge) (neighbour : Nat) (onLeft : Bool) : Option Nat :=
  let (x, w, withReshape) := e.kind.compared g e.operand neighbour
  let existing : Int := if onLeft then e.lhs else e.rhs
  let isOf := match e.kind with
    | .wrap => isSliceOf g x w (e.dim + withReshape) onLeft (existing.bmod (2 ^ 32))
    | .extend => isExtendOf g x w e.dim onLeft
  if isOf then some (coord (g.shape w) (e.dim + withReshape)) else none

/-- An operand of the new concatenation: one that there was, or the op made wider by its neighbour. -/
inductive NewOperand
  | value (v : Nat)
  | widened (v : Nat) (e : Edge) (neighbour : Nat) (onLeft : Bool) (amount : Nat)

def Edge.widen (e : Edge) (onLeft : Bool) (amount : Nat) : Edge :=
  if onLeft then { e with lhs := e.lhs + amount } else { e with rhs := e.rhs + amount }

/-- The loop over the operands, with the new operands so far, the last one first. -/
def widen (kind : Kind) (dim : Nat) : List NewOperand → List Nat → List NewOperand × Bool
  | newOperands, [] => (newOperands.reverse, false)
  | newOperands, v :: operands =>
    match g.defOp v with
    | some (.edge e) =>
      if e.kind ≠ kind ∨ e.dim ≠ dim then widen kind dim (.value v :: newOperands) operands
      else
        let onLeft : Option (Nat × Nat) := match newOperands with
          | .value prev :: _ => (e.amount g prev true).map (prev, ·)
          | _ => none
        let onRight : Option Nat := match operands with
          | next :: _ => e.amount g next false
          | [] => none
        match onLeft with
        | some (prev, amount) =>
          ((widen kind dim (.widened v e prev true amount :: newOperands.tail) operands).1, true)
        | none =>
          match onRight, operands with
          | some amount, next :: operands =>
            ((widen kind dim (.widened v e next false amount :: newOperands) operands).1, true)
          | _, operands => widen kind dim (.value v :: newOperands) operands
    | _ => widen kind dim (.value v :: newOperands) operands

def widenConcat (kind : Kind) (dim : Nat) (operands : List Nat) : Option (List NewOperand) :=
  let (newOperands, changed) := widen g kind dim [] operands
  if changed then some newOperands else none

def WidenWrap := widenConcat g .wrap

def WidenExtend := widenConcat g .extend

end

section

variable {α : Type}

def NewOperand.eval (env : Nat → Tensor α) : NewOperand → Option (Tensor α)
  | value v => some (env v)
  | widened _ e _ onLeft amount => (e.widen onLeft amount).lower (env e.operand)

def newConcat (env : Nat → Tensor α) (dim : Nat) (newOperands : List NewOperand) : Option (Tensor α) :=
  (allSome (newOperands.map (NewOperand.eval env))).bind (concatenate dim)

/-- In every run the new concatenation has the elements of the one that there was. -/
def Preserves (α : Type) (g : Graph) (dim : Nat) (operands : List Nat) (newOperands : List NewOperand) : Prop :=
  ∀ env : Nat → Tensor α, g.Runs env → ∀ y, concatenate dim (operands.map env) = some y →
    ∃ z, newConcat env dim newOperands = some z ∧ Same z y

end

/-! ### Slices of the operand -/

/-- The slices compared are of the value that they are taken to be of, or the values are concatenations of such.
Without elements it does not matter. -/
inductive Graph.Related (g : Graph) : Nat → Nat → Prop
  | same {x w : Nat} {op : SliceOp} : g.defOp w = some (.slice op) → op.operand = x → Related g x w
  | common {x w : Nat} {op op' : SliceOp} : g.defOp w = some (.slice op) → g.defOp x = some (.slice op') →
      op.operand = op'.operand → Related g x w
  | empty {x w : Nat} : 0 ∈ g.shape w → Related g x w
  | concatenate {x w : Nat} {xs ws : List Nat} {dim dim' : Nat} : g.defOp x = some (.concatenate xs dim) →
      g.defOp w = some (.concatenate ws dim') → (∀ p ∈ List.zip xs ws, Related g p.1 p.2) → Related g x w

/-- The border of the wider op is within its operand, the neighbour is made of slices of the operand, and it has no
elements or the border that there was is told. -/
def NewOperand.Good (g : Graph) : NewOperand → Prop
  | value _ => True
  | widened _ e neighbour onLeft amount =>
    let (x, w, _) := e.kind.compared g e.operand neighbour
    let existing := if onLeft then e.lhs else e.rhs
    existing + amount ≤ coord (g.shape e.operand) e.dim ∧ g.Related x w ∧ (0 ∈ g.shape neighbour ∨
        match e.kind with
        | .wrap => existing < 2 ^ 31
        | .extend => existing = 0)

end EnzymeJax.Widening
