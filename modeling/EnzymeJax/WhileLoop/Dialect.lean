import EnzymeJax.Communication.Lowering
import EnzymeJax.Library.Indexed
import EnzymeJax.Library.IntType
import EnzymeJax.Library.Straightline
import EnzymeJax.Library.Value

/-!
# While loops over StableHLO operations

The operations that the patterns on `stablehlo.while` look for, with any other operation a function of its
operands. All values are tensors, a counter and a predicate being tensors without dimensions.
-/

namespace EnzymeJax

open Tensor Straightline Option

/-- An element: an integer, a truth value, or one of another type. -/
inductive Elem (α : Type)
  | int (n : Int)
  | pred (b : Bool)
  | data (a : α)
  deriving DecidableEq

namespace Elem

variable {α : Type}

instance : Inhabited (Elem α) := ⟨int 0⟩

def toInt : Elem α → Option Int
  | int n => some n
  | _ => none

def toPred : Elem α → Option Bool
  | pred b => some b
  | _ => none

theorem toInt_eq_some {x : Elem α} {n : Int} : x.toInt = some n ↔ x = int n := by
  cases x with
  | int m | pred b | data a => simp [toInt]

end Elem

inductive ComparisonDirection
  | EQ
  | NE
  | GE
  | GT
  | LE
  | LT
  deriving DecidableEq

def ComparisonDirection.holds (a b : Int) : ComparisonDirection → Bool
  | EQ => a = b
  | NE => a ≠ b
  | GE => b ≤ a
  | GT => b < a
  | LE => a ≤ b
  | LT => a < b

/-- The attributes of an `update_without_corners`. -/
structure Corners where
  dimensionX : Nat
  x1 : Nat
  x2 : Nat
  dimensionY : Nat
  y1 : Nat
  y2 : Nat

/-- The index is in a corner, outside of the range in both dimensions. -/
def Corners.Has (c : Corners) (idx : List Nat) : Prop :=
  (coord idx c.dimensionX < c.x1 ∨ c.x2 ≤ coord idx c.dimensionX) ∧
    (coord idx c.dimensionY < c.y1 ∨ c.y2 ≤ coord idx c.dimensionY)

instance (c : Corners) (idx : List Nat) : Decidable (c.Has idx) := inferInstanceAs (Decidable (_ ∧ _))

/-- The operand in the corners, and the update elsewhere. -/
def updateWithoutCorners {β : Type} (c : Corners) (update x : Tensor β) : Option (Tensor β) :=
  if x.shape = update.shape then
    some ⟨x.shape, fun idx => if c.Has idx then x.get idx else update.get idx⟩
  else none

namespace WhileLoop

variable {α : Type}

abbrev Val (α : Type) := Tensor.Value (Elem α)

inductive Op (α : Type)
  | constant (x : Val α)
  | compare (direction : ComparisonDirection)
  | add (type : IntType)
  | subtract (type : IntType)
  | multiply (type : IntType)
  | divide (type : IntType)
  | convert (type : IntType)
  | broadcastInDim (dims shape : List Nat)
  | select
  | slice (dims : List SliceDim)
  | dynamicSlice (sizes : List Nat)
  | dynamicUpdateSlice
  | updateWithoutCorners (corners : Corners)
  | concatenate (dim : Nat)
  | pad (dims : List PadDim)
  | transpose (perm : List Nat)
  | wrap (lhs rhs : Int) (dim : Nat)
  | extend (lhs rhs : Int) (dim : Nat)
  | other (f : List (Val α) → Option (Val α))

def toInt (x : Val α) : Option Int := x.toScalar.bind Elem.toInt

def toPred (x : Val α) : Option Bool := x.toScalar.bind Elem.toPred

def ofInt (n : Int) : Val α := Tensor.Value.scalar (.int n)

def ofPred (b : Bool) : Val α := Tensor.Value.scalar (.pred b)

/-- An elementwise operation on integers. -/
def arith (f : Int → Int → Option Int) : Val α → Val α → Option (Val α) :=
  Tensor.Value.zipTraverse fun x y => do
    let a ← x.toInt
    let b ← y.toInt
    (f a b).map .int

def Op.eval : Op α → List (Val α) → Option (Val α)
  | constant x, [] => some x
  | compare direction, [x, y] => do
    let a ← toInt x
    let b ← toInt y
    return ofPred (direction.holds a b)
  | add type, [x, y] => arith (fun a b => some (type.wrap (a + b))) x y
  | subtract type, [x, y] => arith (fun a b => some (type.wrap (a - b))) x y
  | multiply type, [x, y] => arith (fun a b => some (type.wrap (a * b))) x y
  -- rounded toward zero
  | divide type, [x, y] => arith (fun a b => if b = 0 then none else some (type.wrap (a.tdiv b))) x y
  | convert type, [x] => x.traverse fun a => a.toInt.map fun n => .int (type.wrap n)
  | broadcastInDim dims shape, [x] => x.lift fun t => t.broadcastInDim dims shape
  | select, [p, x, y] => (toPred p).map fun b => if b then x else y
  | slice dims, [x] => x.lift (Tensor.slice dims)
  | dynamicSlice sizes, x :: starts => do
    let ss ← allSome (starts.map toInt)
    x.lift (Tensor.dynamicSlice ss sizes)
  | dynamicUpdateSlice, x :: update :: starts => do
    let ss ← allSome (starts.map toInt)
    x.lift (Tensor.dynamicUpdateSlice ss update.tensor)
  | updateWithoutCorners corners, [x, update] => x.lift (EnzymeJax.updateWithoutCorners corners update.tensor)
  | concatenate dim, xs => (Tensor.concatenate dim (xs.map Tensor.Value.tensor)).map .ofTensor
  | pad dims, [x, v] => v.toScalar.bind fun a => x.lift (Tensor.pad dims a)
  | transpose perm, [x] => x.lift (Tensor.transpose perm)
  | wrap lhs rhs dim, [x] => x.lift (lowerWrap dim lhs rhs)
  | extend lhs rhs dim, [x] => x.lift (lowerExtend dim lhs rhs)
  | other f, xs => f xs
  | _, _ => none

def semantics (α : Type) : Semantics (Op α) (Val α) := ⟨Op.eval, toPred⟩

/-! ### Integers -/

variable {x y z : Val α} {n : Int}

theorem arith_eq_some {f : Int → Int → Option Int} : arith f x y = some z ↔ x.shape = y.shape ∧ z.shape = x.shape ∧
    ∀ idx ∈ indices x.shape, ∃ a b n, x.tensor.get idx = .int a ∧ y.tensor.get idx = .int b ∧ f a b = some n ∧
      z.tensor.get idx = .int n := by
  rw [arith, Tensor.Value.zipTraverse_eq_some]
  refine and_congr_right fun _ => and_congr_right fun _ => forall₂_congr fun idx _ => ?_
  simp only [bind_eq_bind, bind_eq_some_iff, map_eq_some_iff, Elem.toInt_eq_some]
  constructor
  · intro ⟨a, ha, b, hb, n, hn, hz⟩
    exact ⟨a, b, n, ha, hb, hn, hz.symm⟩
  · intro ⟨a, b, n, ha, hb, hn, hz⟩
    exact ⟨a, ha, b, hb, n, hn, hz.symm⟩

theorem toInt_eq_some : toInt x = some n ↔ x.shape = [] ∧ x.tensor.get [] = .int n := by
  rw [toInt, Tensor.Value.toScalar]
  split
  · rename_i hshape
    rw [bind_some, and_iff_right hshape, Elem.toInt_eq_some]
  · rename_i hshape
    exact iff_of_false (by rintro ⟨⟩) fun h => hshape h.1

@[simp] theorem toInt_ofInt (n : Int) : toInt (ofInt n : Val α) = some n := rfl

@[simp] theorem toPred_ofPred (b : Bool) : toPred (ofPred b : Val α) = some b := rfl

theorem eq_ofInt (h : toInt x = some n) : x = ofInt n := by
  obtain ⟨hshape, hget⟩ := toInt_eq_some.mp h
  refine Tensor.Value.eq_scalar ?_
  rw [Tensor.Value.toScalar, if_pos hshape, hget]

theorem eval_add_comm {type : IntType} : (Op.add type).eval [x, y] = (Op.add type).eval [y, x] := by
  have hadd : ∀ {x y z : Val α}, arith (fun a b => some (type.wrap (a + b))) x y = some z →
      arith (fun a b => some (type.wrap (a + b))) y x = some z := by
    intro x y z h
    obtain ⟨hshape, hz, hsum⟩ := arith_eq_some.mp h
    refine arith_eq_some.mpr ⟨hshape.symm, hz.trans hshape, fun idx hidx => ?_⟩
    obtain ⟨a, b, n, ha, hb, hn, hz⟩ := hsum idx (hshape ▸ hidx)
    exact ⟨b, a, n, hb, ha, by rw [← hn, Int.add_comm], hz⟩
  exact ext fun z => ⟨hadd, hadd⟩

theorem eval_add_right {type : IntType} {b : Int} : (Op.add type).eval [x, ofInt b] = some z ↔
    ∃ a, toInt x = some a ∧ ofInt (type.wrap (a + b)) = z := by
  change arith (fun a b => some (type.wrap (a + b))) x (ofInt b) = some z ↔ _
  rw [arith_eq_some]
  constructor
  · intro ⟨hshape, hz, hsum⟩
    obtain ⟨a, b', n, ha, hb, hn, hz'⟩ := hsum [] (by rw [hshape]; exact mem_indices_nil.mpr rfl)
    obtain rfl := Elem.int.inj hb
    cases hn
    exact ⟨a, toInt_eq_some.mpr ⟨hshape, ha⟩, (eq_ofInt (toInt_eq_some.mpr ⟨hz.trans hshape, hz'⟩)).symm⟩
  · rintro ⟨a, ha, rfl⟩
    obtain rfl := eq_ofInt ha
    refine ⟨rfl, rfl, fun idx hidx => ?_⟩
    obtain rfl := mem_indices_nil.mp hidx
    exact ⟨a, b, _, rfl, rfl, rfl, rfl⟩

def ofInts (shape : List Nat) (f : List Nat → Int) : Val α := .ofTensor ⟨shape, fun idx => .int (f idx)⟩

variable {shape : List Nat} {f g h : List Nat → Int}

theorem ofInts_nil (n : Int) : (ofInts [] fun _ => n : Val α) = ofInt n := rfl

theorem get_ofInts {idx : List Nat} (hidx : idx ∈ indices shape) :
    (ofInts shape f : Val α).tensor.get idx = .int (f idx) :=
  (Tensor.Value.same_ofTensor ⟨shape, fun idx => Elem.int (f idx)⟩).get_eq idx hidx

theorem eq_ofInts : x = ofInts shape f ↔ x.shape = shape ∧ ∀ idx ∈ indices shape, x.tensor.get idx = .int (f idx) := by
  constructor
  · rintro rfl
    exact ⟨rfl, fun idx hidx => get_ofInts hidx⟩
  · intro ⟨hshape, hx⟩
    refine Tensor.Value.ext ⟨hshape, fun idx hidx => ?_⟩
    have hidx' : idx ∈ indices shape := hshape ▸ hidx
    rw [hx idx hidx', get_ofInts hidx']

theorem ofInts_congr (hfg : ∀ idx ∈ indices shape, f idx = g idx) : (ofInts shape f : Val α) = ofInts shape g :=
  eq_ofInts.mpr ⟨rfl, fun idx hidx => by rw [get_ofInts hidx, hfg idx hidx]⟩

theorem ofInts_inj : (ofInts shape f : Val α) = ofInts shape g ↔ ∀ idx ∈ indices shape, f idx = g idx := by
  refine ⟨fun h idx hidx => ?_, ofInts_congr⟩
  have hget := (eq_ofInts.mp h).2 idx hidx
  rw [get_ofInts hidx] at hget
  exact Elem.int.inj hget

theorem arith_ofInts {F : Int → Int → Option Int} : arith F (ofInts shape f) (ofInts shape g) = some z ↔
    ∃ h : List Nat → Int, z = ofInts shape h ∧ ∀ idx ∈ indices shape, F (f idx) (g idx) = some (h idx) := by
  rw [arith_eq_some]
  constructor
  · intro ⟨_, hz, hget⟩
    refine ⟨fun idx => (F (f idx) (g idx)).getD 0, eq_ofInts.mpr ⟨hz, fun idx hidx => ?_⟩, fun idx hidx => ?_⟩
    · obtain ⟨a, b, n, ha, hb, hn, hzn⟩ := hget idx hidx
      obtain rfl := Elem.int.inj ((get_ofInts hidx).symm.trans ha)
      obtain rfl := Elem.int.inj ((get_ofInts hidx).symm.trans hb)
      rw [hzn, hn, getD_some]
    · obtain ⟨a, b, n, ha, hb, hn, -⟩ := hget idx hidx
      obtain rfl := Elem.int.inj ((get_ofInts hidx).symm.trans ha)
      obtain rfl := Elem.int.inj ((get_ofInts hidx).symm.trans hb)
      dsimp only
      rw [hn, getD_some]
  · rintro ⟨h, rfl, hF⟩
    exact ⟨rfl, rfl, fun idx hidx => ⟨_, _, _, get_ofInts hidx, get_ofInts hidx, hF idx hidx, get_ofInts hidx⟩⟩

theorem eval_convert_ofInt (type : IntType) (n : Int) :
    (Op.convert type).eval [ofInt n] = some (ofInt (type.wrap n) : Val α) := by
  change (ofInt n : Val α).traverse (fun a => a.toInt.map fun n => .int (type.wrap n)) = _
  refine Tensor.Value.traverse_eq_some.mpr ⟨rfl, fun idx hidx => ?_⟩
  obtain rfl := mem_indices_nil.mp hidx
  rfl

theorem eval_broadcastInDim_ofInt (shape : List Nat) (n : Int) :
    (Op.broadcastInDim [] shape).eval [ofInt n] = some (ofInts shape fun _ => n : Val α) := by
  change (ofInt n : Val α).lift (fun t => t.broadcastInDim [] shape) = _
  exact Tensor.Value.lift_eq_some.mpr ⟨⟨shape, fun _ => Elem.int n⟩, if_pos ⟨rfl, List.nodup_nil, nofun, nofun⟩,
    (Tensor.Value.same_ofTensor ⟨shape, fun _ => Elem.int n⟩).symm⟩

end WhileLoop

end EnzymeJax
