import EnzymeJax.Library.Beside

/-!
# Tensors that tile another one

Tensors that have the elements of consecutive parts of a tensor along one dimension concatenate to it.
-/

namespace Tensor

open Function

variable {α : Type*}

/-- The tensor has the elements of `y` at the positions from `a` to `b` along dimension `d`. -/
structure Tile (d : Nat) (y : Tensor α) (a b : Nat) (p : Tensor α) : Prop where
  le : a ≤ b
  shape_eq : p.shape = y.shape.set d (b - a)
  read_eq : ∀ c, Within y.shape c → a ≤ c d → c d < b → p.read (Function.update c d (c d - a)) = y.read c

/-- The tensors are tiles of `y`, each of which starts where the one before ends. -/
inductive Tiles (d : Nat) (y : Tensor α) : Nat → Nat → List (Tensor α) → Prop
  | nil (a : Nat) : Tiles d y a a []
  | cons {a m b : Nat} {p : Tensor α} {ps : List (Tensor α)} (h : Tile d y a m p) (hs : Tiles d y m b ps) :
      Tiles d y a b (p :: ps)

section

variable {d a b m : Nat} {x y p : Tensor α} {ps qs : List (Tensor α)} {c : Nat → Nat}

theorem Tile.tiles (h : Tile d y a b p) : Tiles d y a b [p] := .cons h (.nil b)

theorem Tiles.append (h : Tiles d y a m ps) (h' : Tiles d y m b qs) : Tiles d y a b (ps ++ qs) := by
  induction h with
  | nil => exact h'
  | cons hp _ ih => exact .cons hp (ih h')

theorem Tile.coord_eq (h : Tile d y a b p) (hd : d < y.shape.length) : coord p.shape d = b - a := by
  rw [h.shape_eq, coord_set_self hd]

theorem Tiles.total_eq (h : Tiles d y a b ps) (hd : d < y.shape.length) : a + total d ps = b := by
  induction h with
  | nil => rfl
  | cons hp _ ih =>
    have hle := hp.le
    rw [total_cons, hp.coord_eq hd]
    omega

theorem Tiles.fitTogether (h : Tiles d y a b ps) : FitTogether d y.shape ps := by
  induction h with
  | nil => exact fun p hp => absurd hp List.not_mem_nil
  | cons hp _ ih =>
    intro q hq
    obtain rfl | hq := List.mem_cons.mp hq
    · rw [hp.shape_eq, List.set_set]
    · exact ih q hq

theorem Tiles.pieceAt_eq (h : Tiles d y a b ps) (hd : d < y.shape.length) (hc : Within y.shape c) (hlow : a ≤ c d)
    (hhigh : c d < b) : pieceAt d ps (update c d (c d - a)) = some (y.read c) := by
  induction h with
  | nil => omega
  | @cons a m b p ps hp hs ih =>
    have hle := hp.le
    rw [pieceAt, update_self, hp.coord_eq hd, update_idem]
    split
    · rename_i hlt
      rw [hp.read_eq c hc hlow (by omega)]
    · rename_i hge
      rw [show c d - a - (m - a) = c d - m by omega]
      exact ih (by omega) hhigh

theorem concatenate_tiles (hd : d < y.shape.length) (hne : ps ≠ []) (h : Tiles d y 0 (coord y.shape d) ps) :
    ∃ z, concatenate d ps = some z ∧ Same z y := by
  obtain ⟨z, hz, hpieces⟩ := concatenate_pieces hd hne h.fitTogether
  have htotal := h.total_eq hd
  have hshape : z.shape = y.shape := by
    rw [hpieces.shape_eq, show total d ps = coord y.shape d by omega, set_coord_self hd]
  refine ⟨z, hz, same_of_read hshape fun c hc => ?_⟩
  have hread := read_concatenate hz hc
  rw [hshape] at hc
  have hpiece := h.pieceAt_eq hd hc (Nat.zero_le _) (hc d hd)
  rw [Nat.sub_zero, update_eq_self, ← hread] at hpiece
  exact Option.some.inj hpiece

theorem tile_slice (hd : d < x.shape.length) (hshape : y.shape = x.shape) (hle : a ≤ b) (hb : b ≤ coord x.shape d)
    (hread : ∀ c, Within x.shape c → a ≤ c d → c d < b → y.read c = x.read c) :
    ∃ p, slice (sliceAlong d a b x.shape) x = some p ∧ Tile d y a b p := by
  have hok : List.Forall₂ SliceDim.Ok (sliceAlong d a b x.shape) x.shape :=
    (sliceAlong_ok_iff hd).mpr ⟨by omega, by omega, by omega⟩
  obtain ⟨p, hp⟩ : ∃ p, slice (sliceAlong d a b x.shape) x = some p := ⟨_, if_pos hok⟩
  obtain ⟨-, -, -, hpshape, hpread⟩ := read_sliceAlong hd hp
  refine ⟨p, hp, hle, by rw [hpshape, hshape]; congr 1; omega, fun c hc hlow hhigh => ?_⟩
  rw [hshape] at hc
  rw [hpread, hread c hc hlow hhigh, update_self, update_idem]
  · congr 1
    rw [show (a : Int).toNat + (c d - a) = c d by omega, update_eq_self]
  · rw [hpshape]
    refine within_set hd hc ?_
    omega

end

end Tensor
