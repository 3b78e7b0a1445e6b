import EnzymeJax.Library.Along

/-!
# Tensors as values

A tensor is a function on all index lists, of which only those within the shape matter. A value is a tensor
that has the default element everywhere else, so two values with the same elements are equal.
-/

namespace Tensor

open Option

variable {α : Type*} [Inhabited α]

structure Value (α : Type*) [Inhabited α] where
  tensor : Tensor α
  normal : ∀ idx, idx ∉ indices tensor.shape → tensor.get idx = default

namespace Value

variable {x y : Value α} {s t : Tensor α}

def shape (x : Value α) : List Nat := x.tensor.shape

def ofTensor (t : Tensor α) : Value α where
  tensor := ⟨t.shape, fun idx => if idx ∈ indices t.shape then t.get idx else default⟩
  normal _ hidx := if_neg hidx

instance : Inhabited (Value α) := ⟨ofTensor (splat [] default)⟩

theorem ext (h : Same x.tensor y.tensor) : x = y := by
  obtain ⟨⟨shape, get⟩, hx⟩ := x
  obtain ⟨⟨shape', get'⟩, hy⟩ := y
  obtain ⟨hshape, hget⟩ := h
  obtain rfl : shape = shape' := hshape
  have heq : get = get' := by
    funext idx
    by_cases hidx : idx ∈ indices shape
    · exact hget idx hidx
    · exact (hx idx hidx).trans (hy idx hidx).symm
  subst heq
  rfl

theorem same_ofTensor (t : Tensor α) : Same (ofTensor t).tensor t :=
  ⟨rfl, fun _ hidx => if_pos hidx⟩

theorem ofTensor_eq (h : Same t x.tensor) : ofTensor t = x := ext ((same_ofTensor t).trans h)

/-- A tensor without dimensions. -/
def scalar (a : α) : Value α := ofTensor (splat [] a)

def toScalar (x : Value α) : Option α := if x.shape = [] then some (x.tensor.get []) else none

theorem eq_scalar {a : α} (h : x.toScalar = some a) : x = scalar a := by
  rw [toScalar] at h
  split at h
  · rename_i hshape
    cases h
    refine ext ⟨hshape, fun idx hidx => ?_⟩
    rw [show x.tensor.shape = [] from hshape] at hidx
    obtain rfl := mem_indices_nil.mp hidx
    rfl
  · cases h

def lift (f : Tensor α → Option (Tensor α)) (x : Value α) : Option (Value α) := (f x.tensor).map ofTensor

variable {f : Tensor α → Option (Tensor α)}

theorem lift_eq_some : lift f x = some y ↔ ∃ t, f x.tensor = some t ∧ Same t y.tensor := by
  rw [lift, map_eq_some_iff]
  refine exists_congr fun t => and_congr_right fun _ => ?_
  constructor
  · rintro rfl
    exact (same_ofTensor t).symm
  · intro h
    exact ofTensor_eq h

theorem lift_eq_some_of_eq_ite {ok : Prop} [Decidable ok] (hf : f x.tensor = if ok then some t else none) :
    lift f x = some y ↔ ok ∧ y.shape = t.shape ∧ ∀ idx ∈ indices t.shape, y.tensor.get idx = t.get idx := by
  rw [lift_eq_some, hf]
  constructor
  · rintro ⟨t', ht, hsame⟩
    obtain ⟨hok, ht⟩ := ite_none_right_eq_some.mp ht
    cases ht
    exact ⟨hok, hsame.shape_eq.symm, fun idx hidx => (hsame.get_eq idx hidx).symm⟩
  · rintro ⟨hok, hshape, hget⟩
    exact ⟨t, if_pos hok, hshape.symm, fun idx hidx => (hget idx hidx).symm⟩

/-! ### Elements -/

variable {z : Value α}

/-- An operation on the elements of a tensor, if it is defined on all of them. -/
def traverse (f : α → Option α) (x : Value α) : Option (Value α) :=
  if ∀ idx ∈ indices x.shape, (f (x.tensor.get idx)).isSome then
    some (ofTensor ⟨x.shape, fun idx => (f (x.tensor.get idx)).getD default⟩)
  else none

/-- An operation on the elements of two tensors of one shape, if it is defined on all of them. -/
def zipTraverse (f : α → α → Option α) (x y : Value α) : Option (Value α) :=
  if x.shape = y.shape ∧ ∀ idx ∈ indices x.shape, (f (x.tensor.get idx) (y.tensor.get idx)).isSome then
    some (ofTensor ⟨x.shape, fun idx => (f (x.tensor.get idx) (y.tensor.get idx)).getD default⟩)
  else none

theorem ofTensor_getD_eq_iff {shape : List Nat} {entry : List Nat → Option α}
    (hsome : ∀ idx ∈ indices shape, (entry idx).isSome) : ofTensor ⟨shape, fun idx => (entry idx).getD default⟩ = z ↔
      z.shape = shape ∧ ∀ idx ∈ indices shape, entry idx = some (z.tensor.get idx) := by
  have hget : ∀ idx ∈ indices shape, some ((entry idx).getD default) = entry idx := by
    intro idx hidx
    obtain ⟨a, ha⟩ := isSome_iff_exists.mp (hsome idx hidx)
    rw [ha, getD_some]
  constructor
  · rintro rfl
    refine ⟨rfl, fun idx hidx => ?_⟩
    rw [(same_ofTensor ⟨shape, fun idx => (entry idx).getD default⟩).get_eq idx hidx, hget idx hidx]
  · intro ⟨hshape, hz⟩
    refine ofTensor_eq ⟨hshape.symm, fun idx hidx => ?_⟩
    exact some.inj ((hget idx hidx).trans (hz idx hidx))

theorem traverse_eq_some {f : α → Option α} : x.traverse f = some z ↔
    z.shape = x.shape ∧ ∀ idx ∈ indices x.shape, f (x.tensor.get idx) = some (z.tensor.get idx) := by
  rw [traverse]
  split
  · rename_i hsome
    rw [some.injEq, ofTensor_getD_eq_iff hsome]
  · rename_i hnone
    refine iff_of_false nofun fun ⟨_, hz⟩ => hnone fun idx hidx => ?_
    rw [hz idx hidx]
    rfl

theorem zipTraverse_eq_some {f : α → α → Option α} : x.zipTraverse f y = some z ↔ x.shape = y.shape ∧
    z.shape = x.shape ∧ ∀ idx ∈ indices x.shape, f (x.tensor.get idx) (y.tensor.get idx) = some (z.tensor.get idx) := by
  rw [zipTraverse]
  split
  · rename_i hsome
    rw [some.injEq, ofTensor_getD_eq_iff hsome.2, and_iff_right hsome.1]
  · rename_i hnone
    refine iff_of_false nofun fun ⟨hshape, _, hz⟩ => hnone ⟨hshape, fun idx hidx => ?_⟩
    rw [hz idx hidx]
    rfl

end Value

end Tensor
