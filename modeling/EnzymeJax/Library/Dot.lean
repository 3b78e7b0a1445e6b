import EnzymeJax.Library.Tensor
import Mathlib.Algebra.BigOperators.Ring.Finset
import Mathlib.Algebra.BigOperators.Intervals

/-!
# Sums over the indices of a shape

The indices within a shape, sums over them dimension by dimension, and the inner product of two
tensors.
-/

namespace Tensor

open Finset

/-- The index lists within a shape. -/
def indices : List Nat → Finset (List Nat)
  | [] => {[]}
  | n :: shape => (range n ×ˢ indices shape).map
      ⟨fun p => p.1 :: p.2, fun _ _ h => Prod.ext (List.cons.inj h).1 (List.cons.inj h).2⟩

variable {idx shape : List Nat}

@[simp] theorem mem_indices_nil : idx ∈ indices [] ↔ idx = [] := mem_singleton

@[simp] theorem mem_indices_cons {n : Nat} :
    idx ∈ indices (n :: shape) ↔ ∃ i < n, ∃ rest ∈ indices shape, idx = i :: rest := by
  constructor
  · intro h
    obtain ⟨⟨i, rest⟩, hmem, rfl⟩ := mem_map.mp h
    obtain ⟨hi, hrest⟩ := mem_product.mp hmem
    exact ⟨i, mem_range.mp hi, rest, hrest, rfl⟩
  · rintro ⟨i, hi, rest, hrest, rfl⟩
    exact mem_map.mpr ⟨(i, rest), mem_product.mpr ⟨mem_range.mpr hi, hrest⟩, rfl⟩

theorem cons_mem_indices {n i : Nat} : i :: idx ∈ indices (n :: shape) ↔ i < n ∧ idx ∈ indices shape := by
  simp

theorem mem_indices : idx ∈ indices shape ↔ List.Forall₂ (· < ·) idx shape := by
  induction shape generalizing idx with
  | nil => rw [mem_indices_nil, List.forall₂_nil_right_iff]
  | cons n shape ih =>
    rw [mem_indices_cons, List.forall₂_cons_right_iff]
    constructor
    · rintro ⟨i, hi, rest, hrest, rfl⟩
      exact ⟨i, rest, hi, ih.mp hrest, rfl⟩
    · rintro ⟨i, rest, hi, hrest, rfl⟩
      exact ⟨i, hi, rest, ih.mpr hrest, rfl⟩

theorem length_of_mem_indices (h : idx ∈ indices shape) : idx.length = shape.length :=
  (mem_indices.mp h).length_eq

section

variable {M : Type*} [AddCommMonoid M]

@[simp] theorem sum_indices_nil (f : List Nat → M) : ∑ idx ∈ indices [], f idx = f [] :=
  sum_singleton _ _

theorem sum_indices_cons (n : Nat) (shape : List Nat) (f : List Nat → M) :
    ∑ idx ∈ indices (n :: shape), f idx = ∑ i ∈ range n, ∑ idx ∈ indices shape, f (i :: idx) := by
  rw [indices, sum_map, sum_product]
  rfl

end

section

variable {R : Type*} [CommRing R]

def dot (a b : Tensor R) : R := ∑ idx ∈ indices a.shape, a.get idx * b.get idx

theorem dot_congr {a a' b b' : Tensor R} (hshape : a.shape = a'.shape)
    (ha : ∀ idx ∈ indices a.shape, a.get idx = a'.get idx)
    (hb : ∀ idx ∈ indices a.shape, b.get idx = b'.get idx) : dot a b = dot a' b' := by
  rw [dot, dot, ← hshape]
  exact sum_congr rfl fun idx hidx => by rw [ha idx hidx, hb idx hidx]

theorem sum_mul_comp {shape' : List Nat} {φ : List Nat → List Nat}
    (hφ : ∀ idx ∈ indices shape', φ idx ∈ indices shape) (x y : List Nat → R) :
    ∑ idx ∈ indices shape', x (φ idx) * y idx =
      ∑ i ∈ indices shape, x i * ∑ idx ∈ indices shape' with φ idx = i, y idx := by
  rw [← sum_fiberwise_of_maps_to hφ]
  refine sum_congr rfl fun i _ => ?_
  rw [mul_sum]
  exact sum_congr rfl fun idx hidx => by rw [(mem_filter.mp hidx).2]

end

end Tensor
