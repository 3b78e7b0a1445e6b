import EnzymeJax.Communication.ConcatDUSLike

/-!
# The operations that select

Updates, concatenations of two operands and extends on one side are rewritten to one select between the
shards of two padded values.
-/

namespace EnzymeJax

open Tensor

variable {α : Type*}

/-- The operations, with the shapes and attributes that decide how they are rewritten. -/
inductive UpdateLike
  | dynamicUpdateSlice (shape updateShape starts : List Nat)
  | concatenate (shape : List Nat) (dim left right : Nat)
  | extend (shape : List Nat) (dim lhs rhs : Nat)

namespace UpdateLike

section

variable (mesh : Mesh) (sharding : Sharding)

def shape : UpdateLike → List Nat
  | dynamicUpdateSlice shape _ _ => shape
  | concatenate shape dim left right => shape.set dim (left + right)
  | extend shape dim lhs rhs => shape.set dim (coord shape dim + lhs + rhs)

def Valid : UpdateLike → Prop
  | dynamicUpdateSlice shape updateShape starts =>
    updateShape.length = shape.length ∧ starts.length = shape.length
  | concatenate shape dim _ _ => dim < shape.length
  | extend shape dim lhs rhs => dim < shape.length ∧ lhs ≤ coord shape dim ∧ rhs ≤ coord shape dim

/-- The shape of the padded values. -/
def globalShape (op : UpdateLike) : List Nat :=
  match op with
  | dynamicUpdateSlice shape _ _ => DUSToPadManualCompComm.globalShape mesh sharding shape
  | concatenate _ _ _ _ => evenShape mesh sharding op.shape
  | extend _ _ _ _ => evenShape mesh sharding op.shape

def Fires : UpdateLike → Prop
  | dynamicUpdateSlice shape updateShape starts =>
    DUSToPadManualCompComm.Fires mesh sharding shape updateShape starts
  | concatenate _ dim _ _ => ConcatTwoDUSLike.Fires mesh sharding dim
  | extend _ dim lhs rhs => ExtendDUSLike.Fires mesh sharding dim lhs rhs

/-- The rewritten program computes the result of the operation for all operands. -/
def AlwaysExact (α : Type*) [Zero α] : UpdateLike → Prop
  | dynamicUpdateSlice shape updateShape starts => ∀ (x : Tensor α) (u : Update α),
    x.shape = shape → (u.value updateShape).shape = updateShape →
      ∃ z, Tensor.dynamicUpdateSlice (starts.map Int.ofNat) (u.value updateShape) x = some z ∧
        Exact (DUSToPadManualCompComm.Computes mesh sharding updateShape starts x u) z
  | concatenate shape dim left right => ∀ x₀ x₁ : Tensor α,
    x₀.shape = shape.set dim left → x₁.shape = shape.set dim right → ∃ z, Tensor.concatenate dim [x₀, x₁] = some z ∧
        Exact (ConcatTwoDUSLike.Computes mesh sharding dim x₀ x₁) z
  | extend shape dim lhs rhs => ∀ x : Tensor α, x.shape = shape →
      ∃ z, lowerExtend dim lhs rhs x = some z ∧ Exact (ExtendDUSLike.Computes mesh sharding dim lhs rhs x) z

def HoldsWhen : UpdateLike → Prop
  | dynamicUpdateSlice shape updateShape _ =>
    DUSToPadManualCompComm.HoldsWhen mesh sharding shape updateShape
  | concatenate shape dim left right =>
    HoldsAlong mesh sharding (shape.set dim (left + right)) dim left
  | extend shape dim lhs rhs => HoldsAlong mesh sharding
    (shape.set dim (coord shape dim + lhs + rhs)) dim (ExtendDUSLike.lowPad (coord shape dim) lhs)

end

end UpdateLike

end EnzymeJax
