import EnzymeJax.Library.Elementwise
import EnzymeJax.Library.Permuted
import EnzymeJax.Library.Reduce
import Mathlib.Data.Set.Function

/-!
# Relayouts

A reshape and a transpose take each element of the operand to one position. All elements can be reduced before
or after that, and a free interpretation of the elementwise operations shows which elements come together.
-/

namespace Tensor

open Finset
open List hiding mem_range range

/-! ### Where the elements are taken from -/

section

variable {perm shape sizes : List Nat}

def reshapeSource (sizes shape idx : List Nat) : List Nat := unravel shape (ravel sizes idx)

def transposeSource (perm : List Nat) (rank : Nat) (idx : List Nat) : List Nat :=
  (List.range rank).map fun d => coord idx (perm.idxOf d)

theorem bijOn_reshape (h : sizes.prod = shape.prod) :
    Set.BijOn (reshapeSource sizes shape) (indices sizes) (indices shape) := by
  refine ⟨fun idx hidx => ?_, fun idx hidx idx' hidx' heq => ?_, fun idx hidx => ?_⟩
  · have hlt := ravel_lt (mem_coe.mp hidx)
    exact mem_coe.mpr (unravel_mem_indices (h ▸ hlt))
  · have hlt := ravel_lt (mem_coe.mp hidx)
    have hlt' := ravel_lt (mem_coe.mp hidx')
    have hravel := congrArg (ravel shape) heq
    rw [reshapeSource, reshapeSource, ravel_unravel (h ▸ hlt), ravel_unravel (h ▸ hlt')] at hravel
    rw [← unravel_ravel (mem_coe.mp hidx), hravel, unravel_ravel (mem_coe.mp hidx')]
  · have hlt := ravel_lt (mem_coe.mp hidx)
    refine ⟨unravel sizes (ravel shape idx), mem_coe.mpr (unravel_mem_indices (h ▸ hlt)), ?_⟩
    rw [reshapeSource, ravel_unravel (h ▸ hlt), unravel_ravel (mem_coe.mp hidx)]

theorem coord_transposeSource {rank d : Nat} (idx : List Nat) (hd : d < rank) :
    coord (transposeSource perm rank idx) d = coord idx (perm.idxOf d) := by
  rw [transposeSource, coord_map_range _ hd]

theorem bijOn_transpose (hperm : perm.Perm (List.range shape.length)) :
    Set.BijOn (transposeSource perm shape.length) (indices (perm.map (coord shape))) (indices shape) := by
  have hlen : perm.length = shape.length := by rw [hperm.length_eq, length_range]
  have hsize : ∀ d < shape.length, coord (perm.map (coord shape)) d = coord shape (coord perm d) := by
    intro d hd
    have hd' : d < perm.length := hlen.symm ▸ hd
    rw [coord_map _ _ hd', ← coord_eq_getElem hd']
  refine ⟨fun idx hidx => ?_, fun idx hidx idx' hidx' heq => ?_, fun idx hidx => ?_⟩
  · obtain ⟨-, hlt⟩ := mem_indices_iff.mp (mem_coe.mp hidx)
    rw [length_map, hlen] at hlt
    refine mem_coe.mpr (mem_indices_iff.mpr ⟨by rw [transposeSource, length_map, length_range], ?_⟩)
    intro e he
    have hbound := hlt _ (idxOf_lt hperm he)
    rwa [coord_transposeSource _ he, ← coord_idxOf hperm he, ← hsize _ (idxOf_lt hperm he), coord_idxOf hperm he]
  · obtain ⟨hidx, -⟩ := mem_indices_iff.mp (mem_coe.mp hidx)
    obtain ⟨hidx', -⟩ := mem_indices_iff.mp (mem_coe.mp hidx')
    rw [length_map, hlen] at hidx hidx'
    refine ext_getElem (hidx.trans hidx'.symm) fun d hd hd' => ?_
    have hlt := coord_lt_of_perm hperm (hidx ▸ hd)
    have hat : coord (transposeSource perm shape.length idx) (coord perm d) =
        coord (transposeSource perm shape.length idx') (coord perm d) := by rw [heq]
    rwa [coord_transposeSource _ hlt, coord_transposeSource _ hlt, idxOf_coord hperm (hidx ▸ hd),
      coord_eq_getElem hd, coord_eq_getElem hd'] at hat
  · obtain ⟨hidx, hlt⟩ := mem_indices_iff.mp (mem_coe.mp hidx)
    refine ⟨perm.map (coord idx), mem_coe.mpr (mem_indices_iff.mpr ⟨by rw [length_map, length_map], ?_⟩), ?_⟩
    · intro d hd
      rw [length_map, hlen] at hd
      rw [hsize d hd, coord_map _ _ (hlen.symm ▸ hd), ← coord_eq_getElem (hlen.symm ▸ hd)]
      exact hlt _ (coord_lt_of_perm hperm hd)
    · refine ext_getElem (by rw [transposeSource, length_map, length_range, hidx]) fun e he he' => ?_
      have he'' := hidx ▸ he'
      rw [← coord_eq_getElem he, coord_transposeSource _ he'',
        coord_map _ _ (hlen.symm ▸ idxOf_lt hperm he''), ← coord_eq_getElem (hlen.symm ▸ idxOf_lt hperm he''),
        coord_idxOf hperm he'', coord_eq_getElem he']

end

/-! ### Reductions of all elements -/

variable {β : Type*} {s : Finset β}

section

variable {α : Type*} (op : α → α → α) [Std.Commutative op] [Std.Associative op] (init : α)
  {dims : List Nat} {x y : Tensor α}

theorem dropDims_eq_nil {d : Nat} {l : List β} (h : ∀ e < l.length, d + e ∈ dims) :
    dropDims dims d l = [] := by
  induction l generalizing d with
  | nil => rfl
  | cons a l ih =>
    rw [dropDims, if_pos (by simpa using h 0 (Nat.zero_lt_succ _))]
    refine ih fun e he => ?_
    rw [add_right_comm]
    exact h (e + 1) (Nat.succ_lt_succ he)

theorem mem_of_length_eq {n : Nat} (hnodup : dims.Nodup) (hlt : ∀ d ∈ dims, d < n) (hlen : dims.length = n) :
    ∀ d < n, d ∈ dims := by
  have hsub : dims.toFinset ⊆ range n := fun d hd => mem_range.mpr (hlt d (mem_toFinset.mp hd))
  have hcard : (range n).card ≤ dims.toFinset.card := by
    rw [card_range, toFinset_card_of_nodup hnodup, hlen]
  have heq := eq_of_subset_of_card_le hsub hcard
  intro d hd
  exact mem_toFinset.mp (heq ▸ mem_range.mpr hd)

theorem reduce_all (hnodup : dims.Nodup) (hlt : ∀ d ∈ dims, d < x.shape.length)
    (hlen : dims.length = x.shape.length) : ∃ y, reduce op init dims x = some y ∧ y.shape = [] ∧
      y.get [] = (indices x.shape).fold op init x.get := by
  have hall := mem_of_length_eq hnodup hlt hlen
  have hdrop : ∀ l : List Nat, l.length = x.shape.length → dropDims dims 0 l = [] := by
    intro l hl
    refine dropDims_eq_nil fun e he => ?_
    rw [zero_add]
    exact hall e (hl ▸ he)
  refine ⟨_, if_pos ⟨hnodup, hlt⟩, hdrop _ rfl, ?_⟩
  have hfilter : ((indices x.shape).filter fun idx => dropDims dims 0 idx = []) = indices x.shape :=
    filter_true_of_mem fun idx hidx => hdrop idx (length_of_mem_indices hidx)
  exact congrArg (fun s => s.fold op init x.get) hfilter

theorem fold_bijOn {γ : Type*} {t : Finset γ} {source : β → γ} (h : Set.BijOn source s t) (f : γ → α) :
    (s.fold op init fun i => f (source i)) = t.fold op init f := by
  classical
  have himage : s.image source = t := by
    rw [← coe_inj, coe_image, h.image_eq]
  rw [← himage, fold_image fun i hi j hj hij => h.injOn hi hj hij]
  rfl

end

/-! ### A free interpretation -/

/-- An element of a source, or an operation on elements. -/
inductive Term (κ : Type*)
  | element (source : Nat) (idx : List Nat)
  | apply (name : κ) (args : List (Term κ))

namespace Term

variable {κ : Type*} {name : κ} {xs ys : List (Set (Term κ))}

/-- Operations are not evaluated. -/
def free (name : κ) (xs : List (Set (Term κ))) : Set (Term κ) :=
  {t | ∃ ts, xs = ts.map ({·}) ∧ t = apply name ts}

theorem exists_singletons (h : ∀ x ∈ xs, ∃ t, x = {t}) : ∃ ts : List (Term κ), xs = ts.map ({·}) := by
  induction xs with
  | nil => exact ⟨[], rfl⟩
  | cons x xs ih =>
    obtain ⟨t, rfl⟩ := h x mem_cons_self
    obtain ⟨ts, rfl⟩ := ih fun x hx => h x (mem_cons_of_mem _ hx)
    exact ⟨t :: ts, rfl⟩

theorem free_map (name : κ) (ts : List (Term κ)) : free name (ts.map ({·})) = {apply name ts} := by
  have hinj : Function.Injective ({·} : Term κ → Set (Term κ)) := Set.singleton_injective
  ext t
  constructor
  · rintro ⟨ts', hts, rfl⟩
    rw [hinj.list_map hts]
    exact Set.mem_singleton _
  · intro ht
    exact ⟨ts, rfl, Set.mem_singleton_iff.mp ht⟩

theorem free_eq_singleton (h : ∀ x ∈ xs, ∃ t, x = {t}) : ∃ t, free name xs = {t} := by
  obtain ⟨ts, rfl⟩ := exists_singletons h
  exact ⟨_, free_map name ts⟩

theorem free_inj (hx : ∀ x ∈ xs, ∃ t, x = {t}) (hy : ∀ y ∈ ys, ∃ t, y = {t})
    (h : free name xs = free name ys) : xs = ys := by
  obtain ⟨ts, rfl⟩ := exists_singletons hx
  obtain ⟨us, rfl⟩ := exists_singletons hy
  rw [free_map, free_map] at h
  have heq := Set.singleton_injective h
  injection heq with _ hargs
  rw [hargs]

theorem mem_fold_union {f : β → Set (Term κ)} {t : Term κ} :
    t ∈ s.fold (fun a b : Set (Term κ) => a ∪ b) ∅ f ↔ ∃ i ∈ s, t ∈ f i := by
  classical
  induction s using Finset.induction_on with
  | empty => simp
  | insert i s hi ih => simp [fold_insert hi, ih]

end Term

end Tensor
