import EnzymeJax.Library.DotGeneral

/-!
# Symmetric matrices

A tensor with two dimensions that equals its transpose, and the products of matrices that are symmetric: those of a
matrix and its transpose, and those of a symmetric matrix with itself.
-/

namespace Tensor

open Finset Option
open List hiding mem_range

/-- The matrix equals its transpose. -/
structure Symmetric {α : Type*} (t : Tensor α) : Prop where
  size_eq : coord t.shape 0 = coord t.shape 1
  get_swap : ∀ i j, [i, j] ∈ indices t.shape → t.get [i, j] = t.get [j, i]

section

variable {α : Type*} {s t : Tensor α} {m n i j : Nat}

theorem pair_mem_indices : [i, j] ∈ indices [m, n] ↔ i < m ∧ j < n := by
  rw [mem_indices, forall₂_cons, forall₂_cons]
  exact and_congr_right fun _ => and_iff_left .nil

theorem shape_eq_pair (h : t.shape.length = 2) : t.shape = [coord t.shape 0, coord t.shape 1] := by
  obtain ⟨m, n, heq⟩ := length_eq_two.mp h
  rw [heq]
  rfl

theorem idx_eq_pair {idx : List Nat} (h : idx ∈ indices [m, n]) : idx = [coord idx 0, coord idx 1] := by
  obtain ⟨i, j, heq⟩ := length_eq_two.mp (length_of_mem_indices h)
  rw [heq]
  rfl

theorem symmetric_iff (hshape : t.shape = [m, n]) :
    t.Symmetric ↔ m = n ∧ ∀ i < m, ∀ j < n, t.get [i, j] = t.get [j, i] := by
  constructor
  · intro ⟨hsize, hswap⟩
    rw [hshape] at hsize hswap
    exact ⟨hsize, fun i hi j hj => hswap i j (pair_mem_indices.mpr ⟨hi, hj⟩)⟩
  · intro ⟨hsize, hswap⟩
    refine ⟨by rw [hshape]; exact hsize, fun i j hij => ?_⟩
    rw [hshape, pair_mem_indices] at hij
    exact hswap i hij.1 j hij.2

theorem transpose_pair (hshape : t.shape = [m, n]) :
    transpose [1, 0] t = some ⟨[n, m], fun idx => t.get [coord idx 1, coord idx 0]⟩ := by
  have hperm : [1, 0].Perm (range t.shape.length) := by
    rw [hshape]
    change [1, 0].Perm (range 2)
    decide
  rw [transpose, if_pos hperm, hshape]
  rfl

theorem symmetric_iff_transpose (hrank : t.shape.length = 2) :
    t.Symmetric ↔ ∃ u, transpose [1, 0] t = some u ∧ Same u t := by
  obtain ⟨m, n, hshape⟩ := length_eq_two.mp hrank
  rw [symmetric_iff hshape, transpose_pair hshape]
  constructor
  · rintro ⟨rfl, hswap⟩
    refine ⟨_, rfl, hshape.symm, fun idx hidx => ?_⟩
    have hpair := idx_eq_pair hidx
    rw [hpair, pair_mem_indices] at hidx
    rw [hpair]
    exact hswap _ hidx.2 _ hidx.1
  · rintro ⟨u, hu, hsame⟩
    cases hu
    have hshape' := hsame.shape_eq
    rw [hshape] at hshape'
    obtain ⟨rfl, -⟩ := cons.inj hshape'
    exact ⟨rfl, fun i hi j hj => (hsame.get_eq [j, i] (pair_mem_indices.mpr ⟨hj, hi⟩))⟩

end

/-! ### Products -/

/-- The index with coordinate `k` in the contracting dimension and `i` in the other one. -/
def cell (contracting k i : Nat) : List Nat := if contracting = 0 then [k, i] else [i, k]

theorem read_place_pair {α : Type*} {x : Tensor α} {c : Nat} (hx : x.shape.length = 2) (hc : c < 2) (u : Nat → Nat) :
    x.read (place [c, 1 - c] u) = x.get (cell c (u 0) (u 1)) := by
  rw [read, hx]
  obtain rfl | rfl : c = 0 ∨ c = 1 := by omega
  · rfl
  · rfl

section

variable {R : Type*} [CommRing R] {dims : DotDims} {x y t : Tensor R} {c c' : Nat}

section

variable (h : dotGeneral dims x y = some t) (hlb : dims.lhsBatching = [])
  (hrb : dims.rhsBatching = []) (hlc : dims.lhsContracting = [c]) (hrc : dims.rhsContracting = [c'])
  (hx : x.shape.length = 2) (hy : y.shape.length = 2)

include h hlb hrb hlc hrc hx hy

theorem get_dotGeneral : c < 2 ∧ c' < 2 ∧ coord x.shape c = coord y.shape c' ∧
      t.shape = [coord x.shape (1 - c), coord y.shape (1 - c')] ∧
        ∀ i j, t.get [i, j] = ∑ k ∈ range (coord x.shape c), x.get (cell c k i) * y.get (cell c' k j) := by
  obtain ⟨hok, hsome⟩ := ite_none_right_eq_some.mp h
  have hc : c < 2 := hx ▸ hok.lhs_lt c (by simp [hlb, hlc])
  have hc' : c' < 2 := hy ▸ hok.rhs_lt c' (by simp [hrb, hrc])
  have hsize : coord x.shape c = coord y.shape c' := by
    have hcontracting := hok.contracting_size
    rw [hlc, hrc] at hcontracting
    exact (cons.inj hcontracting).1
  have hfree : ∀ c < 2, freeDims 2 [] [c] = [1 - c] := by decide
  have hlhs : dims.lhsFree x.shape.length = [1 - c] := by rw [DotDims.lhsFree, hlb, hlc, hx, hfree c hc]
  have hrhs : dims.rhsFree y.shape.length = [1 - c'] := by rw [DotDims.rhsFree, hrb, hrc, hy, hfree c' hc']
  refine ⟨hc, hc', hsize, ?_, fun i j => ?_⟩
  · rw [← some.inj hsome, hlb, hlhs, hrhs]
    rfl
  · rw [← some.inj hsome]
    dsimp only
    rw [hlc, List.map_singleton, sum_indices_cons]
    simp only [sum_indices_nil]
    refine sum_congr rfl fun k _ => congrArg₂ _ ?_ ?_
    · have hdims : dims.lhsDims x.shape.length = [c, 1 - c] := by rw [DotDims.lhsDims, hlb, hlc, hlhs]; rfl
      rw [hdims, read_place_pair hx hc]
      simp [DotDims.operandCoords, hlb, hlc, coord]
    · have hdims : dims.rhsDims y.shape.length = [c', 1 - c'] := by rw [DotDims.rhsDims, hrb, hrc, hrhs]; rfl
      rw [hdims, read_place_pair hy hc']
      simp [DotDims.operandCoords, hlb, hlc, hlhs, coord]

theorem symmetric_of_gram (hfree : coord y.shape (1 - c') = coord x.shape (1 - c))
    (hget : ∀ k < coord x.shape c, ∀ i < coord x.shape (1 - c), y.get (cell c' k i) = x.get (cell c k i)) :
    t.Symmetric := by
  obtain ⟨-, -, -, hshape, hsum⟩ := get_dotGeneral h hlb hrb hlc hrc hx hy
  rw [hfree] at hshape
  refine (symmetric_iff hshape).mpr ⟨rfl, fun i hi j hj => ?_⟩
  rw [hsum, hsum]
  refine sum_congr rfl fun k hk => ?_
  rw [mem_range] at hk
  rw [hget k hk j hj, hget k hk i hi, mul_comm]

end

theorem cell_one_sub (hc : c < 2) (k i : Nat) : cell (1 - c) k i = cell c i k := by
  obtain rfl | rfl : c = 0 ∨ c = 1 := by omega
  · rfl
  · rfl

omit [CommRing R] in
theorem cell_mem_indices (hx : x.shape.length = 2) (hc : c < 2) {k i : Nat} (hk : k < coord x.shape c)
    (hi : i < coord x.shape (1 - c)) : cell c k i ∈ indices x.shape := by
  rw [shape_eq_pair hx]
  obtain rfl | rfl : c = 0 ∨ c = 1 := by omega
  · exact pair_mem_indices.mpr ⟨hk, hi⟩
  · exact pair_mem_indices.mpr ⟨hi, hk⟩

omit [CommRing R] in
theorem Symmetric.get_cell (hsymm : x.Symmetric) {k i : Nat} (hmem : cell c k i ∈ indices x.shape) :
    x.get (cell c k i) = x.get (cell c i k) := by
  rw [cell] at hmem ⊢
  split
  · rename_i hc
    rw [if_pos hc] at hmem
    rw [cell, if_pos hc]
    exact hsymm.get_swap k i hmem
  · rename_i hc
    rw [if_neg hc] at hmem
    rw [cell, if_neg hc]
    exact hsymm.get_swap i k hmem

variable (h : dotGeneral dims x y = some t) (hlb : dims.lhsBatching = []) (hrb : dims.rhsBatching = [])
  (hlc : dims.lhsContracting = [c]) (hrc : dims.rhsContracting = [c'])

include hlb hrb hlc hrc

theorem symmetric_dot_self (h : dotGeneral dims x x = some t) (hx : x.shape.length = 2) (hcc : c = c') :
    t.Symmetric :=
  symmetric_of_gram h hlb hrb hlc hrc hx hx (by rw [hcc]) fun k _ i _ => by rw [hcc]

theorem symmetric_dot_symmetric (h : dotGeneral dims x x = some t) (hx : x.shape.length = 2) (hcc : c = 1 - c')
    (hsymm : x.Symmetric) : t.Symmetric := by
  obtain ⟨hc, hc', -⟩ := get_dotGeneral h hlb hrb hlc hrc hx hx
  have hflip : c' = 1 - c := by omega
  have hsize : coord x.shape (1 - c') = coord x.shape (1 - c) := by
    rw [← hcc, hflip.symm]
    obtain rfl | rfl : c = 0 ∨ c = 1 := by omega
    · rw [hflip]
      exact hsymm.size_eq
    · rw [hflip]
      exact hsymm.size_eq.symm
  refine symmetric_of_gram h hlb hrb hlc hrc hx hx hsize fun k hk i hi => ?_
  rw [hflip, cell_one_sub hc]
  exact (hsymm.get_cell (cell_mem_indices hx hc hk hi)).symm

include h

theorem symmetric_dot_transpose (hx : x.shape.length = 2) (hxy : transpose [1, 0] x = some y) (hcc : c = 1 - c') :
    t.Symmetric := by
  rw [transpose_pair (shape_eq_pair hx)] at hxy
  cases hxy
  obtain ⟨hc, hc', -⟩ := get_dotGeneral h hlb hrb hlc hrc hx rfl
  have hflip : c' = 1 - c := by omega
  obtain rfl | rfl : c = 0 ∨ c = 1 := by omega
  · subst hflip
    exact symmetric_of_gram h hlb hrb hlc hrc hx rfl rfl fun _ _ _ _ => rfl
  · subst hflip
    exact symmetric_of_gram h hlb hrb hlc hrc hx rfl rfl fun _ _ _ _ => rfl

theorem symmetric_transpose_dot (hy : y.shape.length = 2) (hyx : transpose [1, 0] y = some x) (hcc : c = 1 - c') :
    t.Symmetric := by
  rw [transpose_pair (shape_eq_pair hy)] at hyx
  cases hyx
  obtain ⟨hc, hc', -⟩ := get_dotGeneral h hlb hrb hlc hrc rfl hy
  have hflip : c' = 1 - c := by omega
  obtain rfl | rfl : c = 0 ∨ c = 1 := by omega
  · subst hflip
    exact symmetric_of_gram h hlb hrb hlc hrc rfl hy rfl fun _ _ _ _ => rfl
  · subst hflip
    exact symmetric_of_gram h hlb hrb hlc hrc rfl hy rfl fun _ _ _ _ => rfl

end

end Tensor
