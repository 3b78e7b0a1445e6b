import EnzymeJax.Library.Indexed

/-!
# Where elements come from

The data-movement operations make no elements of their own: every element of the result is an element
of an operand, so what holds of all elements of the operands holds of those of the result.
-/

namespace Tensor

open List Option

variable {α : Type*}

def All (P : α → Prop) (x : Tensor α) : Prop := ∀ idx ∈ indices x.shape, P (x.get idx)

def Draws (xs : List (Tensor α)) (t : Tensor α) : Prop :=
  ∀ idx ∈ indices t.shape, ∃ x ∈ xs, ∃ j ∈ indices x.shape, t.get idx = x.get j

variable {xs : List (Tensor α)} {ds : List SliceDim} {starts : List Int}

theorem Draws.all {t : Tensor α} (h : Draws xs t) {P : α → Prop} (hall : ∀ x ∈ xs, x.All P) : t.All P := by
  intro idx hidx
  obtain ⟨x, hx, j, hj, heq⟩ := h idx hidx
  rw [heq]
  exact hall x hx j hj

variable {x t : Tensor α}

theorem draws_of_source (source : List Nat → List Nat) (hget : ∀ idx ∈ indices t.shape, t.get idx = x.get (source idx))
    (hsrc : ∀ idx ∈ indices t.shape, source idx ∈ indices x.shape) : Draws [x] t :=
  fun idx hidx => ⟨x, mem_singleton.mpr rfl, source idx, hsrc idx hidx, hget idx hidx⟩

theorem draws_reshape {shape : List Nat} (h : reshape shape x = some t) :
    Draws [x] t := by
  rw [reshape] at h
  split at h
  · rename_i hprod
    cases h
    refine draws_of_source (fun idx => unravel x.shape (ravel shape idx)) (fun _ _ => rfl)
      fun idx hidx => ?_
    exact unravel_mem_indices (hprod ▸ ravel_lt hidx)
  · cases h

theorem draws_transpose {perm : List Nat} (h : transpose perm x = some t) :
    Draws [x] t := by
  rw [transpose] at h
  split at h
  · rename_i hperm
    cases h
    refine draws_of_source (fun idx => (range x.shape.length).map fun d =>
      coord idx (perm.idxOf d)) (fun _ _ => rfl) fun idx hidx => ?_
    rw [mem_indices_iff, length_map, length_range]
    refine ⟨rfl, fun d hd => ?_⟩
    have hmem : d ∈ perm := hperm.mem_iff.mpr (mem_range.mpr hd)
    have hlt : perm.idxOf d < perm.length := idxOf_lt_length_of_mem hmem
    have hcoord := (mem_indices_iff.mp hidx).2 (perm.idxOf d) (by rwa [length_map])
    rw [coord_map _ _ hlt, getElem_idxOf hlt] at hcoord
    rw [coord_map_range _ hd]
    exact hcoord
  · cases h

theorem slice_source_mem {shape idx : List Nat} (hds : Forall₂ SliceDim.Ok ds shape)
    (hidx : idx ∈ indices (ds.map SliceDim.size)) : List.zipWith SliceDim.source ds idx ∈ indices shape := by
  induction hds generalizing idx with
  | nil =>
    obtain rfl := mem_indices_nil.mp hidx
    exact mem_indices_nil.mpr rfl
  | cons hd _ ih =>
    obtain ⟨o, ho, os, hos, rfl⟩ := mem_indices_cons.mp hidx
    exact cons_mem_indices.mpr ⟨SliceDim.source_lt hd ho, ih hos⟩

theorem slice_of_same {x y t : Tensor α} (hsame : Same x y) (h : slice ds x = some t) :
    ∃ z, slice ds y = some z ∧ Same z t := by
  obtain ⟨hds, h⟩ := ite_none_right_eq_some.mp h
  cases h
  refine ⟨_, if_pos (hsame.shape_eq ▸ hds), rfl, fun idx hidx => ?_⟩
  exact (hsame.get_eq _ (slice_source_mem hds hidx)).symm

theorem draws_slice (h : slice ds x = some t) : Draws [x] t := by
  obtain ⟨hds, h⟩ := ite_none_right_eq_some.mp h
  cases h
  exact draws_of_source (List.zipWith SliceDim.source ds) (fun _ _ => rfl) fun idx hidx => slice_source_mem hds hidx

theorem draws_broadcastInDim {dims shape : List Nat} (h : broadcastInDim x dims shape = some t) : Draws [x] t := by
  rw [broadcastInDim] at h
  split at h
  · rename_i hok
    obtain ⟨hlen, -, hdims, hextents⟩ := hok
    cases h
    refine draws_of_source (fun idx => List.zipWith (fun n d => if n = 1 then 0 else coord idx d)
      x.shape dims) (fun _ _ => rfl) fun idx hidx => ?_
    rw [mem_indices_iff, length_zipWith, hlen, Nat.min_self]
    refine ⟨rfl, fun d hd => ?_⟩
    have hd' : d < dims.length := hlen ▸ hd
    have hextent := hextents (x.shape[d], dims[d])
      (mem_iff_getElem.mpr ⟨d, by simpa [hlen] using hd, getElem_zip⟩)
    have hlt := (mem_indices_iff.mp hidx).2 dims[d] (hdims _ (getElem_mem hd'))
    have hentry : coord (List.zipWith (fun n d => if n = 1 then 0 else coord idx d) x.shape dims) d =
        if x.shape[d] = 1 then 0 else coord idx dims[d] := by
      rw [coord, getD_eq_getElem _ _ (by simpa [hlen] using hd), getElem_zipWith]
    have hshape : coord x.shape d = x.shape[d] := by rw [coord, getD_eq_getElem _ _ hd]
    rw [hentry, hshape]
    split
    · rename_i hone
      rw [hone]
      exact Nat.zero_lt_one
    · rename_i hne
      obtain hone | heq := hextent
      · exact absurd hone hne
      · rw [show x.shape[d] = coord shape dims[d] from heq]
        exact hlt
  · cases h

theorem draws_dynamicSlice {sizes : List Nat} (h : dynamicSlice starts sizes x = some t) : Draws [x] t := by
  rw [dynamicSlice] at h
  split at h
  · rename_i hok
    obtain ⟨hstarts, hsizes⟩ := hok
    obtain rfl := some.inj h
    refine draws_of_source (dynamicIndex x.shape sizes starts) (fun _ _ => rfl) fun idx hidx => ?_
    obtain ⟨shape, get⟩ := x
    dsimp only at hstarts hsizes hidx ⊢
    clear h
    rw [dynamicIndex]
    induction hsizes generalizing starts idx with
    | nil =>
      obtain rfl := mem_indices_nil.mp hidx
      exact mem_indices_nil.mpr (zipWith_nil_right)
    | cons hle _ ih =>
      obtain ⟨start, starts, rfl⟩ := exists_cons_of_length_eq_add_one hstarts
      obtain ⟨i, hi, rest, hrest, rfl⟩ := mem_indices_cons.mp hidx
      have hclamp := clampStart_le hle start
      refine cons_mem_indices.mpr ⟨?_, ih rest (add_right_cancel hstarts) hrest⟩
      exact lt_of_lt_of_le (Nat.add_lt_add_left hi _) hclamp
  · cases h

theorem draws_dynamicUpdateSlice {update x t : Tensor α} (h : dynamicUpdateSlice starts update x = some t) :
    Draws [x, update] t := by
  rw [dynamicUpdateSlice] at h
  split at h
  · rename_i hok
    obtain ⟨hstarts, hsizes⟩ := hok
    cases h
    intro idx hidx
    have hlen := length_of_mem_indices hidx
    dsimp only
    cases hregion : regionIndex (zipWith3 clampStart x.shape update.shape starts) update.shape
        idx with
    | none => exact ⟨x, mem_cons_self, idx, hidx, rfl⟩
    | some j =>
      refine ⟨update, mem_cons_of_mem _ mem_cons_self, j, ?_, rfl⟩
      refine regionIndex_mem ?_ (hsizes.length_eq.trans hlen.symm) hregion
      exact (length_clampStarts hstarts hsizes.length_eq).trans hlen.symm
  · cases h

theorem draws_concatenateGet {dim : Nat} (x : Tensor α) (hok : ConcatenateOk dim ((x :: xs).map shape)) :
    Draws (x :: xs) ⟨concatenateShape dim ((x :: xs).map shape), concatenateGet dim x xs⟩ := by
  intro idx hidx
  dsimp only at hidx ⊢
  obtain ⟨hdim, hshapes⟩ := hok
  induction xs generalizing x idx with
  | nil =>
    refine ⟨x, mem_cons_self, idx, ?_, rfl⟩
    rwa [map_cons, map_nil, concatenateShape, map_cons, map_nil, sum_cons,
      sum_nil, add_zero, set_coord_self hdim] at hidx
  | cons x' xs ih =>
    obtain ⟨hx', hxs⟩ := forall_mem_cons.mp hshapes
    have hshape : concatenateShape dim ((x' :: xs).map shape) =
        x.shape.set dim (((x' :: xs).map shape).map (coord · dim)).sum := by
      have hset := congrArg (set · dim (((x' :: xs).map shape).map (coord · dim)).sum) hx'
      simp only [set_set] at hset
      exact hset
    have hdim' : dim < x'.shape.length := by
      have hlen := congrArg length hx'
      rw [length_set, length_set] at hlen
      rwa [hlen]
    have hidx : idx ∈ indices (x.shape.set dim
        (coord x.shape dim + (((x' :: xs).map shape).map (coord · dim)).sum)) := hidx
    have hlt := coord_lt_of_mem_set hdim hidx
    have hidxDim : dim < idx.length := by rwa [length_of_mem_indices hidx, length_set]
    rw [concatenateGet]
    split
    · rename_i hin
      refine ⟨x, mem_cons_self, idx, ?_, rfl⟩
      have hmem : idx.set dim (coord idx dim) ∈ indices (x.shape.set dim (coord x.shape dim)) :=
        set_mem_indices hidx hin
      rwa [set_coord_self hidxDim, set_coord_self hdim] at hmem
    · rename_i hout
      have hmem : idx.set dim (coord idx dim - coord x.shape dim) ∈
          indices (concatenateShape dim ((x' :: xs).map shape)) := by
        rw [hshape]
        exact set_mem_indices hidx (by omega)
      obtain ⟨y, hy, j, hj, heq⟩ := ih x' _ hmem hdim' fun shape' hshape' =>
        (hxs shape' hshape').trans hx'.symm
      exact ⟨y, mem_cons_of_mem _ hy, j, hj, heq⟩

theorem draws_concatenate {dim : Nat} {t : Tensor α} (h : concatenate dim xs = some t) : Draws xs t := by
  cases xs with
  | nil => cases h
  | cons x xs =>
    rw [concatenate] at h
    split at h
    · rename_i hok
      cases h
      exact draws_concatenateGet x hok
    · cases h

end Tensor
