import EnzymeJax.Library.Gather

/-!
# Elementwise operations

An operation on the elements at one index of its operands, which all are of the shape of the result. It can
be applied before or after elements are moved, and unless it is constant its results tell positions apart.
-/

namespace Tensor

open List

variable {α β : Type*}

/-- The shape of the result is given, and the operands are to be of it. -/
def elementwise (f : List α → β) (shape : List Nat) (xs : List (Tensor α)) : Option (Tensor β) :=
  if ∀ x ∈ xs, x.shape = shape then some ⟨shape, fun idx => f (xs.map (·.get idx))⟩ else none

def ConstantOn (n : Nat) (f : List α → β) : Prop :=
  ∀ vs ws : List α, vs.length = n → ws.length = n → f vs = f ws

variable {f : List α → β} {shape sizes : List Nat} {xs xs' : List (Tensor α)} {y : Tensor β}
  {φ ψ : Nat → Nat → Nat} {n : Nat}

theorem elementwise_of_shape (f : List α → β) (h : ∀ x ∈ xs, x.shape = shape) :
    elementwise f shape xs = some ⟨shape, fun idx => f (xs.map (·.get idx))⟩ := if_pos h

theorem eq_of_elementwise (h : elementwise f shape xs = some y) :
    (∀ x ∈ xs, x.shape = shape) ∧ y = ⟨shape, fun idx => f (xs.map (·.get idx))⟩ := by
  rw [elementwise] at h
  split at h
  · rename_i hshape
    exact ⟨hshape, (Option.some.inj h).symm⟩
  · cases h

theorem gathers_elementwise (hy : elementwise f shape xs = some y) (hxs : Forall₂ (Gathers sizes φ) xs xs') :
    ∃ y', elementwise f sizes xs' = some y' ∧ Gathers sizes φ y y' := by
  obtain ⟨-, rfl⟩ := eq_of_elementwise hy
  have hshape : ∀ x' ∈ xs', x'.shape = sizes := by
    intro x' hx'
    obtain ⟨d, hd, rfl⟩ := getElem_of_mem hx'
    exact ((forall₂_iff_get.mp hxs).2 d (hxs.length_eq ▸ hd) hd).shape_eq
  refine ⟨_, elementwise_of_shape f hshape, rfl, fun idx hidx => congrArg f ?_⟩
  clear hy hshape
  induction hxs with
  | nil => rfl
  | cons h _ ih => rw [map_cons, map_cons, h.get_eq idx hidx, ih]

/-- Two gathers agree on every result if and only if they take the same positions, or there are no elements, or
only one result. -/
theorem same_gathers_elementwise_iff :
    (∀ (xs : List (Tensor α)) (y z w : Tensor β), xs.length = n → elementwise f shape xs = some y →
      Gathers sizes φ y z → Gathers sizes ψ y w → Same z w) ↔
      ConstantOn n f ∨ (∃ d < sizes.length, coord sizes d = 0) ∨
        ∀ d < sizes.length, ∀ k < coord sizes d, φ d k = ψ d k := by
  constructor
  · intro h
    refine or_iff_not_imp_left.mpr fun hconstant => ?_
    simp only [ConstantOn, not_forall] at hconstant
    obtain ⟨vs, ws, hvs, hws, hne⟩ := hconstant
    refine (same_gathers_iff (α := Bool) shape).mp fun b z w hb hz hw => ?_
    -- the operands are `vs` or `ws` at each index
    let xs := List.zipWith (fun v w => (⟨shape, fun idx => if b.get idx then v else w⟩ : Tensor α)) vs ws
    have hxs : ∀ x ∈ xs, x.shape = shape := by
      intro x hx
      obtain ⟨d, hd, rfl⟩ := getElem_of_mem hx
      rw [getElem_zipWith]
    have hget : ∀ idx, xs.map (·.get idx) = if b.get idx then vs else ws := by
      intro idx
      cases hb : b.get idx with
      | true | false => exact ext_getElem (by simp [xs, hvs, hws]) fun d hd hd' => by simp [xs, hb]
    have hy := elementwise_of_shape f hxs
    have hsame := h xs _ ⟨sizes, fun idx => f (xs.map (·.get (idx.mapIdx φ)))⟩
      ⟨sizes, fun idx => f (xs.map (·.get (idx.mapIdx ψ)))⟩ (by simp [xs, hvs, hws]) hy
      ⟨rfl, fun _ _ => rfl⟩ ⟨rfl, fun _ _ => rfl⟩
    refine ⟨hz.shape_eq.trans hw.shape_eq.symm, fun idx hidx => ?_⟩
    rw [hz.shape_eq] at hidx
    have hat := hsame.get_eq idx hidx
    rw [hz.get_eq idx hidx, hw.get_eq idx hidx]
    dsimp only at hat
    rw [hget, hget] at hat
    cases hφ : b.get (idx.mapIdx φ) with
    | true =>
      cases hψ : b.get (idx.mapIdx ψ) with
      | true => rfl
      | false =>
        rw [hφ, hψ, if_pos rfl, if_neg Bool.false_ne_true] at hat
        exact absurd hat hne
    | false =>
      cases hψ : b.get (idx.mapIdx ψ) with
      | true =>
        rw [hφ, hψ, if_pos rfl, if_neg Bool.false_ne_true] at hat
        exact absurd hat.symm hne
      | false => rfl
  · rintro (hconstant | hplaces) xs y z w hxs hy hz hw
    · obtain ⟨-, rfl⟩ := eq_of_elementwise hy
      refine ⟨hz.shape_eq.trans hw.shape_eq.symm, fun idx hidx => ?_⟩
      rw [hz.shape_eq] at hidx
      rw [hz.get_eq idx hidx, hw.get_eq idx hidx]
      exact hconstant _ _ (by rw [length_map, hxs]) (by rw [length_map, hxs])
    · exact hz.same_of_places hw hplaces

end Tensor
