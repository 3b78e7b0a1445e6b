import EnzymeJax.Library.Tensor

/-!
# Affine expressions and grids

The raising pass turns induction variables of parallel loops into dimensions of tensors. A value is raised together
with the list of the variables its dimensions stand for, which is all the pass reads of its access map.
-/

namespace EnzymeJax

/-- The values `lb`, `lb + step`, … below `ub` of an induction variable. -/
structure InductionVariableRange where
  lb : Int
  ub : Int
  step : Int

def InductionVariableRange.getNumIters (range : InductionVariableRange) : Int :=
  if range.ub ≤ range.lb then
    if range.step < 0 then (range.lb - range.ub + -range.step - 1).tdiv (-range.step) else 0
  else (range.ub - range.lb + range.step - 1).tdiv range.step

/-- The value of the variable at position `k`. -/
def InductionVariableRange.value (range : InductionVariableRange) (k : Nat) : Int :=
  range.lb + k * range.step

/-- The variables raised to dimensions, and the constant bounds of every induction variable. -/
structure ParallelContext (V : Type) where
  ivs : List V
  getIVRange : V → InductionVariableRange

variable {V : Type} [DecidableEq V]

def ParallelContext.isParallelIV (pc : ParallelContext V) (iv : V) : Bool := decide (iv ∈ pc.ivs)

/-- The extent of a dimension that stands for `iv`: a sequential variable has one position. -/
def ParallelContext.extent (pc : ParallelContext V) (iv : V) : Nat :=
  if pc.isParallelIV iv then (pc.getIVRange iv).getNumIters.toNat else 1

/-- The shape of a tensor whose dimensions stand for the variables of a map. -/
def affineMapShape (pc : ParallelContext V) (map : List V) : List Nat := map.map pc.extent

inductive AffineExprKind where
  | add
  | mul
  | mod
  | floorDiv
  | ceilDiv
  deriving DecidableEq

/-- Affine expressions over dimensions and symbols, both given by their position. -/
inductive AffineExpr where
  | const (value : Int)
  | dim (position : Nat)
  | sym (position : Nat)
  | bin (kind : AffineExprKind) (lhs rhs : AffineExpr)

/-- The mathematical value of an operation; the right operand of the last three is positive. -/
def AffineExprKind.eval : AffineExprKind → Int → Int → Int
  | .add, a, b => a + b
  | .mul, a, b => a * b
  | .mod, a, b => a % b
  | .floorDiv, a, b => a / b
  | .ceilDiv, a, b => -(-a / b)

def AffineExprKind.isDivision : AffineExprKind → Bool
  | .add | .mul => false
  | .mod | .floorDiv | .ceilDiv => true

namespace AffineExpr

def eval (dims syms : Nat → Int) : AffineExpr → Int
  | const value => value
  | dim position => dims position
  | sym position => syms position
  | bin kind lhs rhs => kind.eval (lhs.eval dims syms) (rhs.eval dims syms)

/-- Divisions and remainders are by positive constants. -/
def Supported : AffineExpr → Prop
  | const _ | dim _ | sym _ => True
  | bin kind lhs rhs =>
    lhs.Supported ∧ rhs.Supported ∧ (kind.isDivision → ∃ c > 0, rhs = const c)

/-- The subexpressions, the expression itself included. -/
def subexprs : AffineExpr → List AffineExpr
  | const value => [const value]
  | dim position => [dim position]
  | sym position => [sym position]
  | bin kind lhs rhs => bin kind lhs rhs :: (lhs.subexprs ++ rhs.subexprs)

/-- The positions of the dimensions an expression is a function of. -/
def dimPositions : AffineExpr → List Nat
  | const _ | sym _ => []
  | dim position => [position]
  | bin _ lhs rhs => lhs.dimPositions ++ rhs.dimPositions

theorem mem_subexprs_self (e : AffineExpr) : e ∈ e.subexprs := by
  cases e <;> simp [subexprs]

end AffineExpr

end EnzymeJax
