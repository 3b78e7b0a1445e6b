import EnzymeJax.Library.Dot
import Mathlib.Data.List.Basic

/-!
# Reshapes, transposes, reductions and concatenations

A reshape keeps the row-major order, a transpose permutes the dimensions, an add-reduction sums over the indices that
agree on the dimensions kept, and a concatenation lays its operands out one after another.
-/

namespace Tensor

open Finset List

/-! ### Row-major order -/

/-- The position of an index in row-major order. -/
def ravel : List Nat → List Nat → Nat
  | _ :: shape, i :: idx => i * shape.prod + ravel shape idx
  | _, _ => 0

def unravel : List Nat → Nat → List Nat
  | [], _ => []
  | _ :: shape, k => k / shape.prod :: unravel shape (k % shape.prod)

variable {idx l : List Nat} {k d dim : Nat} {α R : Type*} {xs : List (Tensor R)}

section

variable {shape : List Nat}

theorem ravel_lt (hidx : idx ∈ indices shape) : ravel shape idx < shape.prod := by
  induction shape generalizing idx with
  | nil => simp [ravel]
  | cons n shape ih =>
    obtain ⟨i, hi, rest, hrest, rfl⟩ := mem_indices_cons.mp hidx
    have hlt := ih hrest
    calc i * shape.prod + ravel shape rest < i * shape.prod + shape.prod := by omega
      _ = (i + 1) * shape.prod := by ring
      _ ≤ n * shape.prod := Nat.mul_le_mul_right _ hi
      _ = (n :: shape).prod := prod_cons.symm

theorem unravel_ravel (hidx : idx ∈ indices shape) :
    unravel shape (ravel shape idx) = idx := by
  induction shape generalizing idx with
  | nil => exact (mem_indices_nil.mp hidx).symm
  | cons n shape ih =>
    obtain ⟨i, hi, rest, hrest, rfl⟩ := mem_indices_cons.mp hidx
    have hlt := ravel_lt hrest
    have hpos : 0 < shape.prod := by omega
    rw [ravel, unravel, add_comm, Nat.add_mul_div_right _ _ hpos, Nat.div_eq_of_lt hlt,
      zero_add, Nat.add_mul_mod_self_right, Nat.mod_eq_of_lt hlt, ih hrest]

theorem unravel_mem_indices (hk : k < shape.prod) : unravel shape k ∈ indices shape := by
  induction shape generalizing k with
  | nil => exact mem_indices_nil.mpr rfl
  | cons n shape ih =>
    rw [List.prod_cons] at hk
    have hpos : 0 < shape.prod := Nat.pos_of_mul_pos_left (pos_of_gt hk)
    rw [unravel, cons_mem_indices]
    exact ⟨Nat.div_lt_of_lt_mul (by rwa [mul_comm]), ih (Nat.mod_lt _ hpos)⟩

theorem ravel_unravel (hk : k < shape.prod) : ravel shape (unravel shape k) = k := by
  induction shape generalizing k with
  | nil => exact (Nat.lt_one_iff.mp hk).symm
  | cons n shape ih =>
    rw [List.prod_cons] at hk
    have hpos : 0 < shape.prod := Nat.pos_of_mul_pos_left (pos_of_gt hk)
    rw [unravel, ravel, ih (Nat.mod_lt _ hpos), mul_comm, Nat.div_add_mod]

theorem pos_of_mem_indices (h : idx ∈ indices shape) : ∀ n ∈ shape, 0 < n := by
  induction shape generalizing idx with
  | nil => nofun
  | cons n shape ih =>
    obtain ⟨i, hi, rest, hrest, rfl⟩ := mem_indices_cons.mp h
    exact forall_mem_cons.mpr ⟨pos_of_gt hi, ih hrest⟩

theorem zeros_mem_indices (h : ∀ n ∈ shape, 0 < n) :
    replicate shape.length 0 ∈ indices shape := by
  induction shape with
  | nil => exact mem_indices_nil.mpr rfl
  | cons n shape ih =>
    obtain ⟨hn, h⟩ := forall_mem_cons.mp h
    exact cons_mem_indices.mpr ⟨hn, ih h⟩

end

theorem unravel_zero (shape : List Nat) : unravel shape 0 = replicate shape.length 0 := by
  induction shape with
  | nil => rfl
  | cons n shape ih => rw [unravel, Nat.zero_div, Nat.zero_mod, ih, length_cons, replicate_succ]

theorem unravel_pred {shape : List Nat} (h : ∀ n ∈ shape, 0 < n) :
    unravel shape (shape.prod - 1) = shape.map (· - 1) := by
  induction shape with
  | nil => rfl
  | cons n shape ih =>
    obtain ⟨hn, h⟩ := forall_mem_cons.mp h
    have hpos := prod_pos h
    have hlast : n * shape.prod - 1 = shape.prod * (n - 1) + (shape.prod - 1) := by
      obtain ⟨m, rfl⟩ := Nat.exists_eq_add_of_lt hn
      rw [zero_add, Nat.add_sub_cancel, add_mul, one_mul, mul_comm]
      omega
    rw [List.prod_cons, List.map_cons, ← ih h, unravel, hlast, Nat.mul_add_div hpos, Nat.mul_add_mod,
      Nat.div_eq_of_lt (by omega), Nat.mod_eq_of_lt (by omega), add_zero]

theorem ravel_zeros (shape : List Nat) : ravel shape (replicate shape.length 0) = 0 := by
  induction shape with
  | nil => rfl
  | cons n shape ih => rw [length_cons, replicate_succ, ravel, ih, zero_mul]

theorem ravel_set_zeros {shape : List Nat} (hd : d < shape.length) (c : Nat) :
    ravel shape ((replicate shape.length 0).set d c) = c * (shape.drop (d + 1)).prod := by
  induction shape generalizing d with
  | nil => cases hd
  | cons n shape ih =>
    rw [length_cons, replicate_succ]
    cases d with
    | zero => rw [set_cons_zero, ravel, ravel_zeros, add_zero, drop_one, tail_cons]
    | succ d =>
      rw [set_cons_succ, ravel, zero_mul, zero_add, ih (Nat.lt_of_succ_lt_succ hd), drop_succ_cons]

def reshape {α : Type*} (shape : List Nat) (t : Tensor α) : Option (Tensor α) :=
  if shape.prod = t.shape.prod then
    some ⟨shape, fun idx => t.get (unravel t.shape (ravel shape idx))⟩
  else none

theorem reshape_get_of_ravel_eq {shape : List Nat} {t u : Tensor α} (hu : reshape shape t = some u) {idx' : List Nat}
    (hidx' : idx' ∈ indices t.shape) (hravel : ravel shape idx = ravel t.shape idx') : u.get idx = t.get idx' := by
  rw [reshape] at hu
  split at hu
  · cases hu
    change t.get _ = _
    rw [hravel, unravel_ravel hidx']
  · cases hu

theorem reshape_self (t : Tensor α) : ∃ u, reshape t.shape t = some u ∧
    u.shape = t.shape ∧ ∀ idx ∈ indices t.shape, u.get idx = t.get idx := by
  refine ⟨_, if_pos rfl, rfl, fun idx hidx => ?_⟩
  exact congrArg t.get (unravel_ravel hidx)

theorem prod_append_ones (shape : List Nat) (n : Nat) : (shape ++ replicate n 1).prod = shape.prod := by
  simp

theorem ravel_append_ones {shape : List Nat} (hidx : idx ∈ indices shape) (n : Nat) :
    ravel (shape ++ replicate n 1) (idx ++ replicate n 0) = ravel shape idx := by
  induction shape generalizing idx with
  | nil =>
    obtain rfl := mem_indices_nil.mp hidx
    cases n with
    | zero => rfl
    | succ n =>
      induction n with
      | zero => rfl
      | succ n ih => simpa [ravel, replicate_succ] using ih
  | cons m shape ih =>
    obtain ⟨i, hi, rest, hrest, rfl⟩ := mem_indices_cons.mp hidx
    simp only [cons_append, ravel, ih hrest, prod_append_ones]

theorem append_zeros_mem_indices {shape : List Nat} (hidx : idx ∈ indices shape) (n : Nat) :
    idx ++ replicate n 0 ∈ indices (shape ++ replicate n 1) := by
  rw [mem_indices] at hidx ⊢
  induction hidx with
  | nil =>
    induction n with
    | zero => exact .nil
    | succ n ih => exact .cons one_pos ih
  | cons h _ ih => exact .cons h ih

/-! ### Transposes -/

/-- The result's dimension `d` is the operand's dimension `perm[d]`. -/
def transpose {α : Type*} (perm : List Nat) (t : Tensor α) : Option (Tensor α) :=
  if perm.Perm (List.range t.shape.length) then
    some ⟨perm.map (coord t.shape), fun idx =>
      t.get ((List.range t.shape.length).map fun d => coord idx (perm.idxOf d))⟩
  else none

/-! ### Reductions -/

/-- The entries at the dimensions that are not in `dims`, counting dimensions from `d`. -/
def dropDims {α : Type*} (dims : List Nat) : Nat → List α → List α
  | _, [] => []
  | d, a :: l => if d ∈ dims then dropDims dims (d + 1) l else a :: dropDims dims (d + 1) l

/-- The sums along the dimensions `dims`, with init value zero. -/
def reduceAdd {R : Type*} [AddCommMonoid R] (dims : List Nat) (t : Tensor R) : Option (Tensor R) :=
  if dims.Nodup ∧ ∀ d ∈ dims, d < t.shape.length then
    some ⟨dropDims dims 0 t.shape, fun idx =>
      ∑ i ∈ indices t.shape with dropDims dims 0 i = idx, t.get i⟩
  else none

theorem dropDims_eq_map (dims : List Nat) (d : Nat) (l : List Nat) :
    dropDims dims d l = ((List.range l.length).filter fun i => d + i ∉ dims).map (coord l) := by
  induction l generalizing d with
  | nil => rfl
  | cons a l ih =>
    have hshift : (fun i => decide (d + i ∉ dims)) ∘ Nat.succ = fun i => decide (d + 1 + i ∉ dims) := by
      funext i
      simp [add_assoc, add_comm 1 i]
    have hcoord : coord (a :: l) ∘ Nat.succ = coord l := by
      funext i
      simp [coord]
    rw [dropDims, ih, length_cons, range_succ_eq_map, List.filter_cons, List.filter_map, hshift]
    by_cases hd : d ∈ dims
    · simp only [hd, if_true, Nat.add_zero, not_true_eq_false, decide_false, Bool.false_eq_true,
        if_false, List.map_map, hcoord]
    · simp only [hd, if_false, add_zero, not_false_eq_true, decide_true, if_true, List.map_cons, List.map_map, hcoord]
      rfl

theorem prod_dropDims (dims : List Nat) (d : Nat) (shape : List Nat) :
    (shape.mapIdx fun i n => if d + i ∈ dims then 1 else n).prod = (dropDims dims d shape).prod := by
  induction shape generalizing d with
  | nil => rfl
  | cons n shape ih =>
    simp only [mapIdx_cons, add_zero, ← add_assoc, add_right_comm d _ 1, List.prod_cons, ih, dropDims]
    by_cases hd : d ∈ dims
    · simp only [hd, if_true, one_mul]
    · simp only [hd, if_false, List.prod_cons]

theorem ravel_dropDims {dims : List Nat} {shape : List Nat}
    (hidx : idx ∈ indices (shape.mapIdx fun i n => if d + i ∈ dims then 1 else n)) :
    dropDims dims d idx ∈ indices (dropDims dims d shape) ∧
      ravel (shape.mapIdx fun i n => if d + i ∈ dims then 1 else n) idx =
        ravel (dropDims dims d shape) (dropDims dims d idx) := by
  induction shape generalizing d idx with
  | nil =>
    obtain rfl := mem_indices_nil.mp hidx
    exact ⟨mem_indices_nil.mpr rfl, rfl⟩
  | cons n shape ih =>
    have hprod := prod_dropDims dims (d + 1) shape
    simp only [mapIdx_cons, add_zero, ← add_assoc, add_right_comm d _ 1] at hidx hprod ⊢
    obtain ⟨i, hi, rest, hrest, rfl⟩ := mem_indices_cons.mp hidx
    obtain ⟨hmem, hravel⟩ := ih hrest
    by_cases hd : d ∈ dims
    · simp only [hd, if_true, Nat.lt_one_iff] at hi
      simp only [dropDims, hd, if_true, ravel, hi, zero_mul, zero_add]
      exact ⟨hmem, hravel⟩
    · simp only [hd, if_false] at hi
      simp only [dropDims, hd, if_false, ravel, hravel, hprod, and_true]
      exact cons_mem_indices.mpr ⟨hi, hmem⟩

/-! ### Concatenations -/

/-- There is an operand, and the operands agree in all dimensions but `dim`. -/
def ConcatenateOk (dim : Nat) : List (List Nat) → Prop
  | [] => False
  | shape :: shapes =>
    dim < shape.length ∧ ∀ shape' ∈ shapes, shape'.set dim 0 = shape.set dim 0

instance (dim : Nat) : (shapes : List (List Nat)) → Decidable (ConcatenateOk dim shapes)
  | [] => inferInstanceAs (Decidable False)
  | _ :: _ => inferInstanceAs (Decidable (_ ∧ _))

def concatenateShape (dim : Nat) : List (List Nat) → List Nat
  | [] => []
  | shape :: shapes => shape.set dim ((shape :: shapes).map (coord · dim)).sum

def concatenateGet {α : Type*} (dim : Nat) (x : Tensor α) : List (Tensor α) → List Nat → α
  | [], idx => x.get idx
  | x' :: xs, idx =>
    if coord idx dim < coord x.shape dim then x.get idx
    else concatenateGet dim x' xs (idx.set dim (coord idx dim - coord x.shape dim))

def concatenate {α : Type*} (dim : Nat) : List (Tensor α) → Option (Tensor α)
  | [] => none
  | x :: xs =>
    if ConcatenateOk dim ((x :: xs).map shape) then
      some ⟨concatenateShape dim ((x :: xs).map shape), concatenateGet dim x xs⟩
    else none

theorem coord_set_self (hd : d < l.length) (n : Nat) : coord (l.set d n) d = n := by
  simp [coord, getD, hd]

theorem sum_indices_set_add {M : Type*} [AddCommMonoid M] {shape : List Nat} (hdim : dim < shape.length)
    (n m : Nat) (f : List Nat → M) :
    ∑ idx ∈ indices (shape.set dim (n + m)), f idx = ∑ idx ∈ indices (shape.set dim n), f idx +
        ∑ idx ∈ indices (shape.set dim m), f (idx.set dim (n + coord idx dim)) := by
  induction shape generalizing dim f with
  | nil => cases hdim
  | cons k shape ih =>
    cases dim with
    | zero =>
      simp only [set_cons_zero, sum_indices_cons, sum_range_add]
      rfl
    | succ dim =>
      simp only [set_cons_succ, sum_indices_cons]
      rw [← sum_add_distrib]
      refine sum_congr rfl fun i _ => ?_
      exact ih (Nat.lt_of_succ_lt_succ hdim) fun idx => f (i :: idx)

/-- The elements of the operands, each against the element of the result that it is laid out at. -/
def layoutPairing {R : Type*} [CommRing R] (dim : Nat) (f : List Nat → R) :
    Nat → List (Tensor R) → R
  | _, [] => 0
  | start, x :: xs =>
    ∑ idx ∈ indices x.shape, x.get idx * f (idx.set dim (start + coord idx dim)) +
      layoutPairing dim f (start + coord x.shape dim) xs

theorem layoutPairing_shift [CommRing R] (f : List Nat → R) (n start : Nat) (hxs : ∀ x ∈ xs, dim < x.shape.length) :
    layoutPairing dim (fun idx => f (idx.set dim (n + coord idx dim))) start xs =
      layoutPairing dim f (n + start) xs := by
  induction xs generalizing start with
  | nil => rfl
  | cons x xs ih =>
    obtain ⟨hx, hxs⟩ := forall_mem_cons.mp hxs
    rw [layoutPairing, layoutPairing, ih (start + coord x.shape dim) hxs, add_assoc]
    congr 1
    refine sum_congr rfl fun idx hidx => ?_
    have hdim : dim < idx.length := by rwa [length_of_mem_indices hidx]
    rw [coord_set_self hdim, set_set, add_assoc]

theorem set_coord_self (hd : d < l.length) : l.set d (coord l d) = l := by
  rw [coord, getD_eq_getElem _ _ hd, set_getElem_self]

theorem coord_lt {shape : List Nat} (hidx : idx ∈ indices shape) {d : Nat} (hd : d < shape.length) :
    coord idx d < coord shape d := by
  have hlen := length_of_mem_indices hidx
  have hd' : d < idx.length := hlen ▸ hd
  rw [coord, coord, getD_eq_getElem _ _ hd, getD_eq_getElem _ _ hd']
  exact Forall₂.get (mem_indices.mp hidx) hd' hd

theorem sum_concatenateGet_mul [CommRing R] (x : Tensor R) (hok : ConcatenateOk dim ((x :: xs).map shape))
    (f : List Nat → R) : ∑ idx ∈ indices (concatenateShape dim ((x :: xs).map shape)),
        concatenateGet dim x xs idx * f idx = layoutPairing dim f 0 (x :: xs) := by
  induction xs generalizing x f with
  | nil =>
    have hdim : dim < x.shape.length := hok.1
    simp only [List.map_cons, map_nil, concatenateShape, List.sum_cons, sum_nil,
      set_coord_self hdim, layoutPairing, add_zero, zero_add]
    refine sum_congr rfl fun idx hidx => ?_
    rw [set_coord_self (by rwa [length_of_mem_indices hidx])]
    rfl
  | cons x' xs ih =>
    obtain ⟨hdim, hshapes⟩ := hok
    obtain ⟨hx', hxs⟩ := forall_mem_cons.mp hshapes
    have hlen : x'.shape.length = x.shape.length := by
      simpa using congrArg length hx'
    have hok' : ConcatenateOk dim ((x' :: xs).map shape) :=
      ⟨hlen ▸ hdim, fun shape' hshape' => (hxs shape' hshape').trans hx'.symm⟩
    have hlong : ∀ t ∈ x' :: xs, dim < t.shape.length := by
      intro t ht
      have ht' := congrArg length (hshapes _ (mem_map_of_mem ht))
      rw [length_set, length_set] at ht'
      exact ht' ▸ hdim
    have hshape : concatenateShape dim ((x :: x' :: xs).map shape) =
        x.shape.set dim (coord x.shape dim + (((x' :: xs).map shape).map (coord · dim)).sum) := rfl
    have hshape' : x.shape.set dim (((x' :: xs).map shape).map (coord · dim)).sum =
        concatenateShape dim ((x' :: xs).map shape) := by
      have hset := congrArg (set · dim (((x' :: xs).map shape).map (coord · dim)).sum) hx'
      simp only [set_set] at hset
      exact hset.symm
    have hshift := layoutPairing_shift f (coord x.shape dim) 0 hlong
    rw [add_zero] at hshift
    rw [hshape, sum_indices_set_add hdim, set_coord_self hdim, hshape', layoutPairing, zero_add, ← hshift, ← ih x' hok']
    congr 1
    · refine sum_congr rfl fun idx hidx => ?_
      have hdim' : dim < idx.length := by rwa [length_of_mem_indices hidx]
      rw [concatenateGet, if_pos (coord_lt hidx hdim), zero_add, set_coord_self hdim']
    · refine sum_congr rfl fun idx hidx => ?_
      have hdim' : dim < idx.length := by
        rw [length_of_mem_indices hidx, ← hshape', length_set]
        exact hdim
      rw [concatenateGet, coord_set_self hdim', if_neg (Nat.not_lt.mpr le_self_add),
        Nat.add_sub_cancel_left, set_set, set_coord_self hdim']

end Tensor
