import EnzymeJax.Library.Dot

/-!
# Separable linear maps

A linear map between tensors that is a product of one matrix for each dimension. Transposes and compositions are taken
dimension by dimension, so an adjoint is computed from identities between matrices of numbers.
-/

namespace Tensor

open Finset
open List hiding mem_range sum_eq_zero

/-- The matrix of one dimension. -/
structure Kernel (R : Type*) where
  rows : Nat
  cols : Nat
  entry : Nat → Nat → R

namespace Kernel

variable {R : Type*} [CommRing R]

/-- The product of the entries, one for each dimension. -/
def coeff : List (Kernel R) → List Nat → List Nat → R
  | k :: ks, o :: os, i :: is => k.entry o i * coeff ks os is
  | _, _, _ => 1

def apply (ks : List (Kernel R)) (x : Tensor R) : Tensor R where
  shape := ks.map rows
  get o := ∑ i ∈ indices (ks.map cols), coeff ks o i * x.get i

def transpose (k : Kernel R) : Kernel R := ⟨k.cols, k.rows, fun i o => k.entry o i⟩

/-- First `l`, then `k`. -/
def comp (k l : Kernel R) : Kernel R :=
  ⟨k.rows, l.cols, fun o i => ∑ m ∈ range k.cols, k.entry o m * l.entry m i⟩

theorem coeff_transpose (ks : List (Kernel R)) (o i : List Nat) :
    coeff (ks.map transpose) i o = coeff ks o i := by
  induction ks generalizing o i with
  | nil => simp [coeff]
  | cons k ks ih =>
    cases o with
    | nil => cases i <;> rfl
    | cons o os =>
      cases i with
      | nil => rfl
      | cons i is => exact congrArg (k.entry o i * ·) (ih os is)

variable {ks ls : List (Kernel R)}

variable {o i : List Nat}

theorem coeff_comp (hlen : ks.length = ls.length) (ho : o.length = ks.length) (hi : i.length = ks.length) :
    coeff (List.zipWith comp ks ls) o i = ∑ m ∈ indices (ks.map cols), coeff ks o m * coeff ls m i := by
  induction ks generalizing ls o i with
  | nil => simp [coeff]
  | cons k ks ih =>
    obtain ⟨l, ls, rfl⟩ := exists_cons_of_length_eq_add_one hlen.symm
    obtain ⟨o, os, rfl⟩ := exists_cons_of_length_eq_add_one ho
    obtain ⟨i, is, rfl⟩ := exists_cons_of_length_eq_add_one hi
    simp only [length_cons, Nat.add_right_cancel_iff] at hlen ho hi
    rw [zipWith_cons_cons, coeff, ih hlen ho hi, List.map_cons, sum_indices_cons, comp, sum_mul_sum]
    refine sum_congr rfl fun m _ => sum_congr rfl fun ms _ => ?_
    simp only [coeff]
    ring

theorem dot_apply (ks : List (Kernel R)) {x y : Tensor R} (hx : x.shape = ks.map cols) :
    dot (apply ks x) y = dot x (apply (ks.map transpose) y) := by
  have hrows : (ks.map transpose).map cols = ks.map rows := by
    rw [List.map_map]
    rfl
  simp only [dot, apply, hx, hrows, sum_mul, mul_sum]
  rw [sum_comm]
  refine sum_congr rfl fun i _ => sum_congr rfl fun o _ => ?_
  rw [coeff_transpose]
  ring

theorem map_cols_comp (hlen : ks.length = ls.length) : (List.zipWith comp ks ls).map cols = ls.map cols := by
  induction ks generalizing ls with
  | nil =>
    obtain rfl := length_eq_zero_iff.mp hlen.symm
    rfl
  | cons k ks ih =>
    obtain ⟨l, ls, rfl⟩ := exists_cons_of_length_eq_add_one hlen.symm
    exact congrArg (l.cols :: ·) (ih (add_right_cancel hlen))

theorem apply_comp (hlen : ks.length = ls.length) (x : Tensor R) (ho : o.length = ks.length) :
    (apply ks (apply ls x)).get o = (apply (List.zipWith comp ks ls) x).get o := by
  simp only [apply, map_cols_comp hlen, mul_sum]
  rw [sum_comm]
  refine sum_congr rfl fun i hi => ?_
  have hi' : i.length = ks.length := by
    rw [length_of_mem_indices hi, length_map, hlen]
  rw [coeff_comp hlen ho hi', sum_mul]
  exact sum_congr rfl fun m _ => by ring

theorem apply_operand_congr (ks : List (Kernel R)) {x x' : Tensor R}
    (h : ∀ i ∈ indices (ks.map cols), x.get i = x'.get i) (o : List Nat) : (apply ks x).get o = (apply ks x').get o :=
  sum_congr rfl fun i hi => by rw [h i hi]

/-! ### Matrices that agree -/

/-- Matrices of one size with the same entries. -/
structure Agree (k l : Kernel R) : Prop where
  rows_eq : k.rows = l.rows
  cols_eq : k.cols = l.cols
  entry_eq : ∀ o < k.rows, ∀ i < k.cols, k.entry o i = l.entry o i

omit [CommRing R] in
theorem map_rows_of_agree (h : Forall₂ Agree ks ls) :
    ks.map rows = ls.map rows := by
  induction h with
  | nil => rfl
  | cons h _ ih => rw [List.map_cons, List.map_cons, h.rows_eq, ih]

omit [CommRing R] in
theorem map_cols_of_agree (h : Forall₂ Agree ks ls) :
    ks.map cols = ls.map cols := by
  induction h with
  | nil => rfl
  | cons h _ ih => rw [List.map_cons, List.map_cons, h.cols_eq, ih]

theorem coeff_congr (h : Forall₂ Agree ks ls) (ho : o ∈ indices (ks.map rows))
    (hi : i ∈ indices (ks.map cols)) : coeff ks o i = coeff ls o i := by
  induction h generalizing o i with
  | nil => rfl
  | cons h _ ih =>
    obtain ⟨o, hlt, os, hos, rfl⟩ := mem_indices_cons.mp ho
    obtain ⟨i, hlt', is, his, rfl⟩ := mem_indices_cons.mp hi
    rw [coeff, coeff, h.entry_eq o hlt i hlt', ih hos his]

theorem apply_congr (h : Forall₂ Agree ks ls) (x : Tensor R) (ho : o ∈ indices (ks.map rows)) :
    (apply ks x).get o = (apply ls x).get o := by
  simp only [apply]
  rw [← map_cols_of_agree h]
  exact sum_congr rfl fun i hi => by rw [coeff_congr h ho hi]

theorem dot_eq_of_agree {x y a b : Tensor R} (hx : x.shape = ks.map cols) (ha : a.shape = ks.map rows)
    (hget : ∀ idx ∈ indices a.shape, a.get idx = (apply ks x).get idx) (hagree : Forall₂ Agree ls (ks.map transpose))
    (hget' : ∀ idx ∈ indices x.shape, b.get idx = (apply ls y).get idx) : dot a y = dot x b := by
  have hrows : ls.map rows = x.shape := by
    rw [map_rows_of_agree hagree, List.map_map, hx]
    rfl
  have hleft : dot a y = dot (apply ks x) y := dot_congr ha hget fun _ _ => rfl
  rw [hleft, dot_apply ks hx]
  refine dot_congr rfl (fun _ _ => rfl) fun idx hidx => ?_
  rw [hget' idx hidx, ← apply_congr hagree y (hrows ▸ hidx)]

/-! ### Selections -/

/-- At the index `o` every matrix selects one column, or none. -/
inductive Selects : List (Kernel R) → List Nat → List (Option Nat) → Prop
  | nil : Selects [] [] []
  | cons {k : Kernel R} {ks : List (Kernel R)} {o : Nat} {os : List Nat} {sel : Option Nat}
      {sels : List (Option Nat)}
      (hentry : ∀ i < k.cols, k.entry o i = if sel = some i then 1 else 0)
      (hcols : ∀ j, sel = some j → j < k.cols) (hrest : Selects ks os sels) :
      Selects (k :: ks) (o :: os) (sel :: sels)

theorem Selects.apply_get {ks : List (Kernel R)} {sels : List (Option Nat)} (h : Selects ks o sels)
    (x : Tensor R) : (apply ks x).get o = ((allSome sels).map x.get).getD 0 := by
  change ∑ i ∈ indices (ks.map cols), coeff ks o i * x.get i = _
  generalize x.get = f
  induction h generalizing f with
  | nil => simp [coeff, allSome]
  | @cons k ks o os sel sels hentry hcols _ ih =>
    rw [List.map_cons, sum_indices_cons]
    simp only [coeff, mul_assoc, ← mul_sum]
    cases sel with
    | none =>
      refine (sum_eq_zero fun i hi => ?_).trans rfl
      rw [hentry i (mem_range.mp hi), if_neg (Option.some_ne_none i).symm, zero_mul]
    | some j =>
      rw [sum_eq_single_of_mem j (mem_range.mpr (hcols j rfl)), hentry j (hcols j rfl), if_pos rfl,
        one_mul, ih fun is => f (j :: is), allSome, Option.map_map]
      · rfl
      · intro i hi hne
        rw [hentry i (mem_range.mp hi), if_neg fun h => hne (Option.some.inj h).symm, zero_mul]

end Kernel

end Tensor
