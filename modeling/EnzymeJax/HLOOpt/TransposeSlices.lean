import EnzymeJax.HLOOpt.DynamicSlices
import EnzymeJax.Library.Permuted
import EnzymeJax.Library.Pieces

/-!
# Slices of transposes

A slice, a dynamic slice or an update of a transpose becomes one of the operand, and the other way round. What belongs
to a dimension moves with it.
-/

namespace EnzymeJax.TransposeSlices

open Tensor DynamicSlices List Option Function

def getInversePermutation (perm : List Nat) : List Nat :=
  perm.zipIdx.foldl (fun res en => res.set en.1 en.2) (List.replicate perm.length 0)

def permuted {β : Type} [Inhabited β] (indices : List Nat) (l : List β) : List β :=
  indices.map fun ind => l.getD ind default

instance : Inhabited SliceDim := ⟨⟨0, 0, 0⟩⟩

instance : Inhabited Start := ⟨⟨⟨0, false⟩, 0, false⟩⟩

section

variable {α : Type} (perm : List Nat)

def TransposeOpCreate (x : Tensor α) : Option (Tensor α) :=
  if perm.Pairwise (· ≤ ·) then some x else transpose perm x

def transposeSliceHelper (ds : List SliceDim) (transposed : Tensor α) : Option (Tensor α) :=
  SliceOpCreate (permuted perm ds) transposed

def transposeDynamicSliceHelper (sliceStarts : List Start) (sliceSizes : List Nat) (transposed : Tensor α) :
    Option (Tensor α) :=
  DynamicSliceOpCreate (permuted perm sliceStarts) (permuted perm sliceSizes) transposed

def sliceTransposeHelper (ds : List SliceDim) (operand : Tensor α) : Option (Tensor α) :=
  SliceOpCreate (permuted (getInversePermutation perm) ds) operand

def dynamicSliceTransposeHelper (sliceStarts : List Start) (sliceSizes : List Nat) (operand : Tensor α) :
    Option (Tensor α) :=
  DynamicSliceOpCreate (permuted (getInversePermutation perm) sliceStarts)
    (permuted (getInversePermutation perm) sliceSizes) operand

def dynamicUpdateSliceTransposeHelper (startIndices : List Start) (update operand : Tensor α) :
    Option (Tensor α) := do
  let newUpdate ← TransposeOpCreate perm update
  dynamicUpdateSlice ((permuted (getInversePermutation perm) startIndices).map Start.value) newUpdate operand

end

/-! ### What is preserved -/

section

variable (α : Type) (perm shape : List Nat)

def SliceTransposePreserves (ds : List SliceDim) : Prop :=
  ∀ x t y : Tensor α, x.shape = shape → transpose perm x = some t → slice ds t = some y →
    ∃ w z, sliceTransposeHelper perm ds x = some w ∧ transpose perm w = some z ∧ Same z y

def DynamicSliceTransposePreserves (starts : List Start) (sizes : List Nat) : Prop :=
  ∀ x t y : Tensor α, x.shape = shape → transpose perm x = some t →
    dynamicSlice (starts.map Start.value) sizes t = some y →
      ∃ w z, dynamicSliceTransposeHelper perm starts sizes x = some w ∧ transpose perm w = some z ∧ Same z y

def DynamicUpdateSliceTransposePreserves (starts : List Start) (updateShape : List Nat) : Prop :=
  ∀ x u t y : Tensor α, x.shape = shape → u.shape = updateShape → transpose perm x = some t →
    dynamicUpdateSlice (starts.map Start.value) u t = some y →
      ∃ w z, dynamicUpdateSliceTransposeHelper perm starts u x = some w ∧ transpose perm w = some z ∧ Same z y

def TransposeSlicePreserves (ds : List SliceDim) : Prop :=
  ∀ x t w y : Tensor α, x.shape = shape → transpose perm x = some t → slice ds x = some w →
    transpose perm w = some y → ∃ z, transposeSliceHelper perm ds t = some z ∧ Same z y

def TransposeDynamicSlicePreserves (starts : List Start) (sizes : List Nat) : Prop :=
  ∀ x t w y : Tensor α, x.shape = shape → transpose perm x = some t →
    dynamicSlice (starts.map Start.value) sizes x = some w → transpose perm w = some y →
      ∃ z, transposeDynamicSliceHelper perm starts sizes t = some z ∧ Same z y

end

/-- The permutation is its own inverse on the dimensions of the update that are longer than 1, and on all
extents, or the update has no elements and fits. -/
def UpdateTransposeHolds (perm shape updateShape : List Nat) : Prop :=
  (0 ∈ updateShape ∧ ∀ d < perm.length, coord updateShape (coord perm (coord perm d)) ≤ coord shape d) ∨
  ∀ d < perm.length, coord updateShape (coord perm (coord perm d)) = coord updateShape d ∧
    (coord perm (coord perm d) = d ∨ coord updateShape d ≤ 1)

/-! ### Permuted entries -/

section

variable {perm : List Nat}

/-- Entries written at distinct places each stay where they are written. -/
theorem foldl_set_spec {β : Type*} {l : List (Nat × β)} (hl : (l.map Prod.fst).Nodup) (res : List β)
    (hlt : ∀ en ∈ l, en.1 < res.length) :
    (l.foldl (fun res en => res.set en.1 en.2) res).length = res.length ∧
      (∀ en ∈ l, (l.foldl (fun res en => res.set en.1 en.2) res)[en.1]? = some en.2) ∧
        ∀ e ∉ l.map Prod.fst, (l.foldl (fun res en => res.set en.1 en.2) res)[e]? = res[e]? := by
  induction l generalizing res with
  | nil => exact ⟨rfl, by simp, fun e _ => rfl⟩
  | cons a l ih =>
    obtain ⟨hnotin, hl⟩ := nodup_cons.mp hl
    obtain ⟨ha, hlt⟩ := forall_mem_cons.mp hlt
    obtain ⟨hlen, hget, hother⟩ := ih hl (res.set a.1 a.2)
      fun en hen => by rw [length_set]; exact hlt en hen
    rw [foldl_cons]
    refine ⟨by rw [hlen, length_set], forall_mem_cons.mpr ⟨?_, hget⟩, fun e he => ?_⟩
    · rw [hother _ hnotin, getElem?_set_self ha]
    · obtain ⟨hne, he⟩ := not_or.mp (mt mem_cons.mpr he)
      rw [hother e he, getElem?_set_ne (Ne.symm hne)]

section

variable (hperm : perm.Perm (range perm.length))

include hperm

theorem getInversePermutation_spec :
    (getInversePermutation perm).length = perm.length ∧
      ∀ e < perm.length, coord (getInversePermutation perm) e = perm.idxOf e := by
  have hnodup : perm.Nodup := hperm.nodup_iff.mpr nodup_range
  obtain ⟨hlen, hget, -⟩ := foldl_set_spec (l := perm.zipIdx)
    (by rwa [zipIdx_map_fst]) (replicate perm.length 0) fun en hen => by
      have hmem : en.1 ∈ perm := (mem_zipIdx' hen).2 ▸ getElem_mem _
      rw [length_replicate]
      exact mem_range.mp (hperm.mem_iff.mp hmem)
  rw [length_replicate] at hlen
  refine ⟨hlen, fun e he => ?_⟩
  have hlt := idxOf_lt_length_of_mem (hperm.mem_iff.mpr (mem_range.mpr he))
  have hen := hget (e, perm.idxOf e) (mem_zipIdx_iff_getElem?.mpr (by rw [getElem?_eq_getElem hlt, getElem_idxOf hlt]))
  rw [coord, getD_eq_getElem?_getD, getInversePermutation, hen, getD_some]

theorem getInversePermutation_lt :
    ∀ i ∈ getInversePermutation perm, i < perm.length := by
  obtain ⟨hlen, hget⟩ := getInversePermutation_spec hperm
  intro i hi
  obtain ⟨e, he, rfl⟩ := getElem_of_mem hi
  rw [← coord_eq_getElem, hget e (hlen ▸ he)]
  exact idxOf_lt hperm (hlen ▸ he)

theorem getInversePermutation_perm :
    (getInversePermutation perm).Perm (range perm.length) := by
  obtain ⟨hlen, hget⟩ := getInversePermutation_spec hperm
  have hnodup : (getInversePermutation perm).Nodup := by
    refine nodup_iff_injective_get.mpr fun i j hij => Fin.ext ?_
    have hi : i.val < perm.length := hlen ▸ i.isLt
    have hj : j.val < perm.length := hlen ▸ j.isLt
    rw [get_eq_getElem, get_eq_getElem, ← coord_eq_getElem, ← coord_eq_getElem, hget _ hi, hget _ hj] at hij
    rw [← coord_idxOf hperm hi, hij, coord_idxOf hperm hj]
  refine (hnodup.subperm fun i hi => ?_).perm_of_length_le (by rw [length_range, hlen])
  exact mem_range.mpr (getInversePermutation_lt hperm i hi)

end

variable {β : Type} [Inhabited β] {l : List β}

theorem permutes_permuted (hperm : perm.Perm (range perm.length)) (hl : l.length = perm.length) :
    Permutes perm (permuted perm l) l := by
  refine ⟨by rw [permuted, length_map], hl, fun d hd => ?_⟩
  have hlt : coord perm d < l.length := hl.symm ▸ coord_lt_of_perm hperm hd
  rw [permuted, getElem?_map, getElem?_eq_getElem hd, map_some, ← coord_eq_getElem hd,
    getD_eq_getElem _ _ hlt, getElem?_eq_getElem hlt]

theorem permutes_permuted_inverse (hperm : perm.Perm (range perm.length))
    (hl : l.length = perm.length) : Permutes perm l (permuted (getInversePermutation perm) l) := by
  obtain ⟨hlen, hget⟩ := getInversePermutation_spec hperm
  refine ⟨hl, by rw [permuted, length_map, hlen], fun d hd => ?_⟩
  have hlt : coord perm d < perm.length := coord_lt_of_perm hperm hd
  have hlt' : coord perm d < (getInversePermutation perm).length := hlen.symm ▸ hlt
  rw [permuted, getElem?_map, getElem?_eq_getElem hlt', map_some,
    ← coord_eq_getElem hlt', hget _ hlt, idxOf_coord hperm hd, getD_eq_getElem _ _ (hl.symm ▸ hd),
    getElem?_eq_getElem (hl.symm ▸ hd)]

end

/-! ### Slices -/

section

variable {α : Type} {perm shape sizes : List Nat} {ds : List SliceDim} {starts : List Start} {x t w y z : Tensor α}

theorem transpose_of_same (h : Same w x) (hx : transpose perm x = some t) :
    ∃ z, transpose perm w = some z ∧ Same z t := by
  obtain ⟨z, hz⟩ := exists_transpose hx (congrArg length h.shape_eq)
  exact ⟨z, hz, (same_transpose_iff hz hx).mpr h⟩

theorem shape_eq_of_transpose {t' x' : Tensor α} (ht : transpose perm x = some t)
    (ht' : transpose perm x' = some t') (h : x'.shape = x.shape) : t'.shape = t.shape := by
  have hshape := permutes_shape ht
  have hshape' := permutes_shape ht'
  refine ext_getElem? fun d => ?_
  by_cases hd : d < perm.length
  · rw [hshape'.get_eq d hd, h, hshape.get_eq d hd]
  · rw [getElem?_eq_none (hshape'.length_left ▸ not_lt.mp hd), getElem?_eq_none (hshape.length_left ▸ not_lt.mp hd)]

theorem sliceTransposePreserves : SliceTransposePreserves α perm shape ds := by
  intro x t y _ ht hy
  have hshape := permutes_shape ht
  have hds := permutes_permuted_inverse (perm_of_transpose ht)
    ((gathers_slice hy).1.length_eq.trans hshape.length_left)
  obtain ⟨hiff, hsame⟩ := slice_transpose ht hds
  obtain ⟨x', hx'⟩ := hiff.mp ⟨y, hy⟩
  obtain ⟨z, hz, hzy⟩ := hsame x' y hx' hy
  obtain ⟨w, hw, hwx⟩ := sliceOpCreate_eq hx'
  obtain ⟨z', hz', hzz⟩ := transpose_of_same hwx hz
  exact ⟨w, z', hw, hz', hzz.trans hzy⟩

theorem transposeSlicePreserves : TransposeSlicePreserves α perm shape ds := by
  intro x t w y _ ht hw hy
  have hds := permutes_permuted (perm_of_transpose ht)
    ((gathers_slice hw).1.length_eq.trans (permutes_shape ht).length_right)
  obtain ⟨hiff, hsame⟩ := slice_transpose ht hds
  obtain ⟨t', ht'⟩ := hiff.mpr ⟨w, hw⟩
  obtain ⟨y', hy', hyt⟩ := hsame w t' hw ht'
  cases hy.symm.trans hy'
  obtain ⟨z, hz, hzt⟩ := sliceOpCreate_eq ht'
  exact ⟨z, hz, hzt.trans hyt.symm⟩

/-! ### Dynamic slices -/

theorem createsWhen_iff {starts' : List Start} {sizes' shape' : List Nat} (hperm : perm.Perm (range perm.length))
    (hstarts : Permutes perm starts' starts) (hsizes : Permutes perm sizes' sizes)
    (hshape : Permutes perm shape' shape) : CreatesWhen starts' sizes' shape' ↔ CreatesWhen starts sizes shape := by
  have hmem : ∀ {l : List Start} {P : Start → Prop}, (∀ s ∈ l, P s) ↔ ∀ (d : Nat) s, l[d]? = some s → P s := by
    intro l P
    constructor
    · intro h d s hs
      exact h s (mem_of_getElem? hs)
    · intro h s hs
      obtain ⟨d, hd, rfl⟩ := getElem_of_mem hs
      exact h d _ (getElem?_eq_getElem hd)
  rw [CreatesWhen, CreatesWhen, hmem, hmem]
  refine imp_congr ?_ ?_
  · exact hstarts.forall_iff (P := fun s size dim => ∃ c : Int, s.getSExtValue = some c ∧ c + size ≤ dim)
      hperm hsizes hshape
  · exact hstarts.forall_iff (P := fun s _ _ => ∀ c : Int, s.getSExtValue = some c → 0 ≤ c)
      hperm hsizes hshape

theorem valid_permuted {indices : List Nat} (hvalid : ∀ s ∈ starts, s.Valid)
    (hlt : ∀ i ∈ indices, i < starts.length) : ∀ s ∈ permuted indices starts, s.Valid := by
  intro s hs
  obtain ⟨i, hi, rfl⟩ := mem_map.mp hs
  rw [getD_eq_getElem _ _ (hlt i hi)]
  exact hvalid _ (getElem_mem _)

theorem dynamicSliceTransposePreserves_iff (hvalid : ∀ s ∈ starts, s.Valid)
    (ht : transpose perm x = some t) (hy : dynamicSlice (starts.map Start.value) sizes t = some y) :
    DynamicSliceTransposePreserves α perm x.shape starts sizes ↔ CreatesWhen starts sizes t.shape := by
  have hperm := perm_of_transpose ht
  have hshape := permutes_shape ht
  obtain ⟨hlen, hfit⟩ := (gathers_dynamicSlice hy).1
  rw [length_map] at hlen
  have hstarts := permutes_permuted_inverse hperm (hlen.trans hshape.length_left)
  have hsizes := permutes_permuted_inverse hperm (hfit.length_eq.trans hshape.length_left)
  have hslice := fun {x t : Tensor α} (ht : transpose perm x = some t) =>
    dynamicSlice_transpose ht (hstarts.map Start.value) hsizes
  rw [createsWhen_iff hperm hstarts hsizes hshape]
  constructor
  · intro h
    obtain ⟨x', hx'⟩ := (hslice ht).1.mp ⟨y, hy⟩
    obtain ⟨w, z, hw, -, -⟩ := h x t y rfl ht hy
    exact createsWhen_of_eq_some hx' hw
  · intro h x₂ t₂ y₂ hx₂ ht₂ hy₂
    rw [← hx₂] at h
    obtain ⟨x', hx'⟩ := (hslice ht₂).1.mp ⟨y₂, hy₂⟩
    obtain ⟨z, hz, hzy⟩ := (hslice ht₂).2 x' y₂ hx' hy₂
    have hvalid' := valid_permuted hvalid fun i hi => by
      rw [hstarts.length_left]
      exact getInversePermutation_lt hperm i hi
    obtain ⟨w, hw, hwx⟩ := creationPreserves_of_createsWhen hvalid' h x₂ x' rfl hx'
    obtain ⟨z', hz', hzz⟩ := transpose_of_same hwx hz
    exact ⟨w, z', hw, hz', hzz.trans hzy⟩

theorem transposeDynamicSlicePreserves_iff (hvalid : ∀ s ∈ starts, s.Valid) (ht : transpose perm x = some t)
    (hw : dynamicSlice (starts.map Start.value) sizes x = some w) (hy : transpose perm w = some y) :
    TransposeDynamicSlicePreserves α perm x.shape starts sizes ↔ CreatesWhen starts sizes x.shape := by
  have hperm := perm_of_transpose ht
  have hshape := permutes_shape ht
  obtain ⟨hlen, hfit⟩ := (gathers_dynamicSlice hw).1
  rw [length_map] at hlen
  have hstarts := permutes_permuted hperm (hlen.trans hshape.length_right)
  have hsizes := permutes_permuted hperm (hfit.length_eq.trans hshape.length_right)
  have hslice := fun {x t : Tensor α} (ht : transpose perm x = some t) =>
    dynamicSlice_transpose ht (hstarts.map Start.value) hsizes
  rw [← createsWhen_iff hperm hstarts hsizes hshape]
  constructor
  · intro h
    obtain ⟨t', ht'⟩ := (hslice ht).1.mpr ⟨w, hw⟩
    obtain ⟨z, hz, -⟩ := h x t w y rfl ht hw hy
    exact createsWhen_of_eq_some ht' hz
  · intro h x₂ t₂ w₂ y₂ hx₂ ht₂ hw₂ hy₂
    obtain ⟨t', ht'⟩ := (hslice ht₂).1.mpr ⟨w₂, hw₂⟩
    obtain ⟨y', hy', hyt⟩ := (hslice ht₂).2 w₂ t' hw₂ ht'
    cases hy₂.symm.trans hy'
    have hvalid' := valid_permuted hvalid fun i hi => by
      rw [hstarts.length_right]
      exact mem_range.mp (hperm.mem_iff.mp hi)
    rw [← shape_eq_of_transpose ht ht₂ hx₂] at h
    obtain ⟨z, hz, hzt⟩ := creationPreserves_of_createsWhen hvalid' h t₂ t' rfl ht'
    exact ⟨z, hz, hzt.trans hyt.symm⟩

end

/-! ### Updates -/

section

variable {α : Type} {perm shape updateShape : List Nat} {starts : List Start} {x t u u' w y z : Tensor α}

theorem read_TransposeOpCreate (hperm : perm.Perm (range perm.length))
    (hu : u.shape.length = perm.length) : ∃ u', TransposeOpCreate perm u = some u' ∧ u'.shape.length = perm.length ∧
      (∀ e < perm.length, coord u'.shape e = coord u.shape (coord perm e)) ∧
      ∀ c, u'.read c = u.read (c ∘ perm.idxOf) := by
  rw [TransposeOpCreate]
  split
  · rename_i hsorted
    have hid : perm = range perm.length :=
      hperm.eq_of_pairwise (fun a b _ _ => le_antisymm) hsorted pairwise_le_range
    have hcoord : ∀ e < perm.length, coord perm e = e := by
      intro e he
      rw [hid, coord_eq_getElem (by rwa [length_range]), getElem_range]
    refine ⟨u, rfl, hu, fun e he => by rw [hcoord e he], fun c => read_congr u fun e he => ?_⟩
    have he' : e < perm.length := hu ▸ he
    have hidx := idxOf_coord hperm he'
    rw [hcoord e he'] at hidx
    rw [comp_apply, hidx]
  · have hperm' : perm.Perm (range u.shape.length) := by rwa [hu]
    obtain ⟨u', hu'⟩ : ∃ u', transpose perm u = some u' := ⟨_, if_pos hperm'⟩
    obtain ⟨-, hlen, hdims⟩ := shape_transpose hu'
    refine ⟨u', hu', hlen.trans hu, fun e he => (hdims e (hu.symm ▸ he)).2.2, read_transpose hu'⟩

theorem dynamicUpdateSliceTransposeHelper_eq (hu' : TransposeOpCreate perm u = some u') :
    dynamicUpdateSliceTransposeHelper perm starts u x =
      dynamicUpdateSlice ((permuted (getInversePermutation perm) starts).map Start.value) u' x := by
  rw [dynamicUpdateSliceTransposeHelper, hu']
  rfl

/-- Where the update of the operand starts, in the order of the transpose. -/
def newStart (perm shape updateShape : List Nat) (starts : List Start) (d : Nat) : Nat :=
  clampStart (coord shape d) (coord updateShape (coord perm (coord perm d)))
    ((starts.map Start.value).getD d 0)

section

variable (ht : transpose perm x = some t) (hy : dynamicUpdateSlice (starts.map Start.value) u t = some y)

include ht hy

theorem exists_update_transpose_iff :
    (∃ w, dynamicUpdateSliceTransposeHelper perm starts u x = some w) ↔
      ∀ d < perm.length, coord u.shape (coord perm (coord perm d)) ≤ coord t.shape d := by
  have hperm := perm_of_transpose ht
  have hshape := permutes_shape ht
  obtain ⟨hlen, hfit⟩ := (read_dynamicUpdateSlice hy).1
  have hu : u.shape.length = perm.length := hfit.length_eq.trans hshape.length_left
  obtain ⟨u', hu', hlen', hdims, -⟩ := read_TransposeOpCreate hperm hu
  rw [length_map] at hlen
  have hstarts := (permutes_permuted_inverse hperm (hlen.trans hshape.length_left)).length_right
  have hfit' : Forall₂ (· ≤ ·) u'.shape x.shape ↔
      ∀ d < perm.length, coord u.shape (coord perm (coord perm d)) ≤ coord t.shape d := by
    rw [forall₂_iff_get, and_iff_right (hlen'.trans hshape.length_right.symm)]
    constructor
    · intro h d hd
      have hlt := coord_lt_of_perm hperm hd
      have hle := h (coord perm d) (hlen'.symm ▸ hlt) (hshape.length_right.symm ▸ hlt)
      rw [get_eq_getElem, get_eq_getElem, ← coord_eq_getElem, ← coord_eq_getElem] at hle
      rwa [hdims _ hlt, ← hshape.coord_eq hd] at hle
    · intro h e he he'
      have hlt := idxOf_lt hperm (hlen' ▸ he)
      have hle := h (perm.idxOf e) hlt
      rw [hshape.coord_eq hlt, coord_idxOf hperm (hlen' ▸ he), ← hdims e (hlen' ▸ he)] at hle
      rwa [get_eq_getElem, get_eq_getElem, ← coord_eq_getElem, ← coord_eq_getElem]
  rw [dynamicUpdateSliceTransposeHelper_eq hu', ← hfit', dynamicUpdateSlice]
  constructor
  · rintro ⟨w, hw⟩
    split at hw
    · rename_i hok
      exact hok.2
    · cases hw
  · intro h
    exact ⟨_, if_pos ⟨by rw [length_map, hstarts, hshape.length_right], h⟩⟩

theorem read_update_transpose (hw : dynamicUpdateSliceTransposeHelper perm starts u x = some w)
    (hz : transpose perm w = some z) :
    z.shape = t.shape ∧ ∀ c, Within t.shape c →
      ((∀ d < perm.length, newStart perm t.shape u.shape starts d ≤ c d ∧ c d <
        newStart perm t.shape u.shape starts d + coord u.shape (coord perm (coord perm d))) →
          z.read c = u.read fun d => c (perm.idxOf (perm.idxOf d)) -
            newStart perm t.shape u.shape starts (perm.idxOf (perm.idxOf d))) ∧
      (¬(∀ d < perm.length, newStart perm t.shape u.shape starts d ≤ c d ∧ c d <
        newStart perm t.shape u.shape starts d + coord u.shape (coord perm (coord perm d))) → z.read c = t.read c) := by
  have hperm := perm_of_transpose ht
  have hshape := permutes_shape ht
  obtain ⟨hlen, hfit⟩ := (read_dynamicUpdateSlice hy).1
  have hu : u.shape.length = perm.length := hfit.length_eq.trans hshape.length_left
  obtain ⟨u', hu', hlen', hdims, hread⟩ := read_TransposeOpCreate hperm hu
  rw [length_map] at hlen
  have hstarts := permutes_permuted_inverse hperm (hlen.trans hshape.length_left)
  rw [dynamicUpdateSliceTransposeHelper_eq hu'] at hw
  obtain ⟨-, hwshape, hwread⟩ := read_dynamicUpdateSlice hw
  have hzshape := shape_eq_of_transpose ht hz hwshape
  -- the start in dimension `perm[d]` of the operand is the one in dimension `d` of the transpose
  have hstart : ∀ d < perm.length, updateStart x.shape u'.shape
      ((permuted (getInversePermutation perm) starts).map Start.value) (coord perm d) =
        newStart perm t.shape u.shape starts d := by
    intro d hd
    have hval := (hstarts.map Start.value).get_eq d hd
    rw [updateStart, newStart, hdims _ (coord_lt_of_perm hperm hd), hshape.coord_eq hd,
      getD_eq_getElem?_getD, getD_eq_getElem?_getD, ← hval]
  refine ⟨hzshape, fun c hc => ?_⟩
  have hcx := within_transpose ht hc
  have hregion : (∀ e < x.shape.length, updateStart x.shape u'.shape
      ((permuted (getInversePermutation perm) starts).map Start.value) e ≤ (c ∘ perm.idxOf) e ∧
        (c ∘ perm.idxOf) e < updateStart x.shape u'.shape
          ((permuted (getInversePermutation perm) starts).map Start.value) e + coord u'.shape e) ↔
      ∀ d < perm.length, newStart perm t.shape u.shape starts d ≤ c d ∧ c d <
        newStart perm t.shape u.shape starts d + coord u.shape (coord perm (coord perm d)) := by
    rw [hshape.length_right]
    constructor
    · intro h d hd
      have hat := h (coord perm d) (coord_lt_of_perm hperm hd)
      rwa [hstart d hd, comp_apply, idxOf_coord hperm hd, hdims _ (coord_lt_of_perm hperm hd)] at hat
    · intro h e he
      have hat := h (perm.idxOf e) (idxOf_lt hperm he)
      rwa [← hstart _ (idxOf_lt hperm he), coord_idxOf hperm he, ← hdims e he] at hat
  obtain ⟨hin, hout⟩ := hwread (c ∘ perm.idxOf) hcx
  rw [hregion] at hin hout
  rw [read_transpose hz]
  constructor
  · intro h
    rw [hin h, hread]
    refine read_congr u fun d hd => ?_
    have hlt := idxOf_lt hperm (hu ▸ hd)
    rw [comp_apply, comp_apply, ← hstart _ (idxOf_lt hperm hlt), coord_idxOf hperm hlt]
  · intro h
    rw [hout h, read_transpose ht]

end

variable {a b v : Nat → Nat}

theorem box_le {n : Nat} {u : Nat → Nat} (hu : ∀ d < n, 0 < u d)
    (h : ∀ c : Nat → Nat, (∀ d < n, a d ≤ c d ∧ c d < a d + u d) → ∀ d < n, b d ≤ c d ∧ c d < b d + v d) :
    ∀ d < n, b d ≤ a d ∧ a d + u d ≤ b d + v d := by
  intro d hd
  have hfirst := h a (fun e he => ⟨le_refl _, Nat.lt_add_of_pos_right (hu e he)⟩) d hd
  have hlast := h (fun e => a e + (u e - 1)) (fun e he => by have := hu e he; omega) d hd
  have hpos := hu d hd
  exact ⟨hfirst.1, by have := hlast.2; omega⟩

theorem eq_of_box {n : Nat} {u : Nat → Nat} (hu : ∀ d < n, 0 < u d) (hv : ∀ d < n, 0 < v d)
    (h : ∀ c : Nat → Nat, (∀ d < n, a d ≤ c d ∧ c d < a d + u d) ↔
      ∀ d < n, b d ≤ c d ∧ c d < b d + v d) : ∀ d < n, a d = b d ∧ u d = v d := by
  intro d hd
  have hle := box_le hu (fun c => (h c).mp) d hd
  have hge := box_le hv (fun c => (h c).mpr) d hd
  omega

section

variable [Nontrivial α] (ht : transpose perm x = some t)
  (hy : dynamicUpdateSlice (starts.map Start.value) u t = some y)

include ht hy

theorem boxes_of_preserves (hpos : ∀ d < perm.length, 0 < coord u.shape d)
    (hfits : ∀ d < perm.length, coord u.shape (coord perm (coord perm d)) ≤ coord t.shape d)
    (h : DynamicUpdateSliceTransposePreserves α perm x.shape starts u.shape) :
    ∀ d < perm.length, updateStart t.shape u.shape (starts.map Start.value) d = newStart perm t.shape u.shape starts d ∧
        coord u.shape d = coord u.shape (coord perm (coord perm d)) := by
  have hperm := perm_of_transpose ht
  have hlen := (permutes_shape ht).length_left
  obtain ⟨⟨-, hfit⟩, -, -⟩ := read_dynamicUpdateSlice hy
  obtain ⟨P, Q, hPQ⟩ := exists_pair_ne α
  obtain ⟨t', ht'⟩ := exists_transpose ht (y := ⟨x.shape, fun _ => P⟩) rfl
  have htshape := shape_eq_of_transpose ht ht' rfl
  have hushape : (Tensor.mk u.shape fun _ => Q).shape = u.shape := rfl
  obtain ⟨y', hy', -⟩ := dynamicUpdateSlice_of_shape hy hushape htshape
  obtain ⟨w, z, hw, hz, hsame⟩ := h ⟨x.shape, fun _ => P⟩ ⟨u.shape, fun _ => Q⟩ t' y' rfl rfl ht' hy'
  obtain ⟨-, hyshape, hyread⟩ := read_dynamicUpdateSlice hy'
  obtain ⟨hzshape, hzread⟩ := read_update_transpose ht' hy' hw hz
  rw [htshape] at hyshape hyread hzshape hzread
  have hP : ∀ c, t'.read c = P := fun c => read_transpose ht' c
  have heq : ∀ c, Within t.shape c → z.read c = y'.read c := fun c hc => hsame.read_eq (hzshape ▸ hc)
  refine eq_of_box hpos (fun d hd =>
    hpos _ (coord_lt_of_perm hperm (coord_lt_of_perm hperm hd))) fun c => ?_
  constructor
  · intro hin
    have hc : Within t.shape c := fun d hd => lt_of_lt_of_le (hin d (hlen ▸ hd)).2
      (clampStart_le (coord_le_of_forall₂ hfit d) _)
    by_contra hout
    rw [← hlen] at hin
    have hQ := (hyread c hc).1 hin
    rw [← heq c hc, (hzread c hc).2 hout, hP] at hQ
    exact hPQ hQ
  · intro hin
    have hc : Within t.shape c := fun d hd => lt_of_lt_of_le (hin d (hlen ▸ hd)).2
      (clampStart_le (hfits d (hlen ▸ hd)) _)
    by_contra hout
    have hQ := (hzread c hc).1 hin
    rw [← hlen] at hout
    rw [heq c hc, (hyread c hc).2 hout, hP] at hQ
    exact hPQ hQ

theorem transposeHolds_of_preserves (h : DynamicUpdateSliceTransposePreserves α perm x.shape starts u.shape) :
    UpdateTransposeHolds perm t.shape u.shape := by
  have hperm := perm_of_transpose ht
  have hlen := (permutes_shape ht).length_left
  obtain ⟨⟨-, hfit⟩, -, -⟩ := read_dynamicUpdateSlice hy
  have hu : u.shape.length = perm.length := hfit.length_eq.trans hlen
  obtain ⟨w, z, hw, -, -⟩ := h x u t y rfl rfl ht hy
  have hfits := (exists_update_transpose_iff ht hy).mp ⟨w, hw⟩
  by_cases hempty : 0 ∈ u.shape
  · exact .inl ⟨hempty, hfits⟩
  right
  have hpos : ∀ d < perm.length, 0 < coord u.shape d := fun d hd =>
    pos_of_ne_zero fun hzero => hempty (by
      rw [← hzero, coord_eq_getElem (hu ▸ hd)]
      exact getElem_mem _)
  have hboxes := boxes_of_preserves ht hy hpos hfits h
  refine fun d hd => ⟨(hboxes d hd).2.symm, ?_⟩
  by_contra hnot
  obtain ⟨hne, hlong⟩ := not_or.mp hnot
  -- an update that is marked where coordinate `d` is 1
  obtain ⟨P, Q, hPQ⟩ := exists_pair_ne α
  have hushape : (Tensor.mk u.shape fun idx => if coord idx d = 1 then Q else P).shape = u.shape := rfl
  obtain ⟨y', hy', -⟩ := dynamicUpdateSlice_of_shape hy hushape rfl
  obtain ⟨w, z, hw, hz, hsame⟩ := h x ⟨u.shape, fun idx => if coord idx d = 1 then Q else P⟩ t y' rfl rfl
    ht hy'
  obtain ⟨-, hyshape, hyread⟩ := read_dynamicUpdateSlice hy'
  obtain ⟨hzshape, hzread⟩ := read_update_transpose ht hy' hw hz
  have hread : ∀ c : Nat → Nat, (Tensor.mk u.shape fun idx => if coord idx d = 1 then Q else P).read c =
      if c d = 1 then Q else P := read_mark (hu.symm ▸ hd) fun k => if k = 1 then Q else P
  let c := fun e => updateStart t.shape u.shape (starts.map Start.value) e + if e = d then 1 else 0
  have hin : ∀ e < t.shape.length, updateStart t.shape u.shape (starts.map Start.value) e ≤ c e ∧
      c e < updateStart t.shape u.shape (starts.map Start.value) e + coord u.shape e := by
    intro e he
    have hpos' := hpos e (hlen ▸ he)
    refine ⟨le_self_add, Nat.add_lt_add_left ?_ _⟩
    split
    · rename_i hed
      rw [hed]
      exact not_le.mp hlong
    · exact hpos'
  have hc : Within t.shape c := fun e he => lt_of_lt_of_le (hin e he).2
    (clampStart_le (coord_le_of_forall₂ hfit e) _)
  have hin' : ∀ e < perm.length, newStart perm t.shape u.shape starts e ≤ c e ∧ c e <
      newStart perm t.shape u.shape starts e + coord u.shape (coord perm (coord perm e)) := by
    intro e he
    have hat := hin e (hlen.symm ▸ he)
    rwa [(hboxes e he).1, (hboxes e he).2] at hat
  have hone : ∀ e < perm.length, c e - newStart perm t.shape u.shape starts e = if e = d then 1 else 0 := by
    intro e he
    rw [← (hboxes e he).1]
    exact Nat.add_sub_cancel_left _ _
  have hlt := idxOf_lt hperm (idxOf_lt hperm hd)
  have heq := hsame.read_eq (hzshape ▸ hc)
  rw [(hzread c hc).1 hin', (hyread c hc).1 hin, hread, hread, hone _ hlt, (hboxes d hd).1, hone d hd,
    if_pos rfl, if_pos rfl, if_neg] at heq
  · exact hPQ heq
  · intro hidx
    rw [if_neg] at hidx
    · exact Nat.zero_ne_one hidx
    · intro hself
      apply hne
      have htwice := coord_idxOf hperm (idxOf_lt hperm hd)
      rw [hself] at htwice
      rw [htwice, coord_idxOf hperm hd]

end

theorem preserves_of_transposeHolds (ht : transpose perm x = some t) (h : UpdateTransposeHolds perm t.shape u.shape) :
    DynamicUpdateSliceTransposePreserves α perm x.shape starts u.shape := by
  intro x₂ u₂ t₂ y₂ hx₂ hu₂ ht₂ hy₂
  rw [← shape_eq_of_transpose ht ht₂ hx₂, ← hu₂] at h
  have hperm := perm_of_transpose ht₂
  have hlen := (permutes_shape ht₂).length_left
  obtain ⟨⟨-, hfit⟩, hyshape, hyread⟩ := read_dynamicUpdateSlice hy₂
  have hu : u₂.shape.length = perm.length := hfit.length_eq.trans hlen
  have hfits : ∀ d < perm.length, coord u₂.shape (coord perm (coord perm d)) ≤ coord t₂.shape d := by
    rcases h with ⟨-, hle⟩ | h
    · exact hle
    · intro d hd
      rw [(h d hd).1]
      exact coord_le_of_forall₂ hfit d
  obtain ⟨w, hw⟩ := (exists_update_transpose_iff ht₂ hy₂).mpr hfits
  have hwshape : w.shape = x₂.shape := by
    obtain ⟨u', hu', -⟩ := read_TransposeOpCreate hperm hu
    rw [dynamicUpdateSliceTransposeHelper_eq hu'] at hw
    exact (read_dynamicUpdateSlice hw).2.1
  obtain ⟨z, hz⟩ := exists_transpose ht₂ (congrArg length hwshape)
  obtain ⟨hzshape, hzread⟩ := read_update_transpose ht₂ hy₂ hw hz
  refine ⟨w, z, hw, hz, same_of_read (hzshape.trans hyshape.symm) fun c hc => ?_⟩
  rw [hzshape] at hc
  rcases h with ⟨hempty, -⟩ | h
  · -- neither update writes anything
    obtain ⟨d, hd, hzero⟩ := getElem_of_mem hempty
    rw [← coord_eq_getElem] at hzero
    rw [hu] at hd
    have hidx := idxOf_lt hperm (idxOf_lt hperm hd)
    rw [(hzread c hc).2, (hyread c hc).2]
    · intro hin
      have hlt := hin d (hlen.symm ▸ hd)
      omega
    · intro hin
      have hlt := hin _ hidx
      rw [coord_idxOf hperm (idxOf_lt hperm hd), coord_idxOf hperm hd] at hlt
      omega
  have hstart : ∀ d < perm.length, updateStart t₂.shape u₂.shape (starts.map Start.value) d =
      newStart perm t₂.shape u₂.shape starts d := by
    intro d hd
    rw [updateStart, newStart, (h d hd).1]
  by_cases hin : ∀ d < t₂.shape.length, updateStart t₂.shape u₂.shape (starts.map Start.value) d ≤ c d ∧
      c d < updateStart t₂.shape u₂.shape (starts.map Start.value) d + coord u₂.shape d
  · rw [(hyread c hc).1 hin, (hzread c hc).1]
    · refine read_congr u₂ fun d hd => ?_
      rw [hu] at hd
      have hlt := idxOf_lt hperm (idxOf_lt hperm hd)
      have htwice : coord perm (coord perm (perm.idxOf (perm.idxOf d))) = d := by
        rw [coord_idxOf hperm (idxOf_lt hperm hd), coord_idxOf hperm hd]
      obtain ⟨hsize, hself⟩ := h _ hlt
      rw [htwice] at hsize hself
      rcases hself with hself | hshort
      · rw [← hself, hstart d hd]
      · -- both coordinates are the first ones
        have hat := hin d (hlen.symm ▸ hd)
        have hat' := hin _ (hlen.symm ▸ hlt)
        rw [hstart d hd] at hat ⊢
        rw [hstart _ hlt] at hat'
        omega
    · intro d hd
      have hat := hin d (hlen.symm ▸ hd)
      rwa [hstart d hd, ← (h d hd).1] at hat
  · rw [(hyread c hc).2 hin, (hzread c hc).2]
    intro hin'
    apply hin
    intro d hd
    have hat := hin' d (hlen ▸ hd)
    rwa [← hstart d (hlen ▸ hd), (h d (hlen ▸ hd)).1] at hat

end

/-! ### Two and three dimensions -/

def i32Starts (starts : List Int) : List Start := starts.map fun start => i32Start start false

def planes (shape : List Nat) : Tensor Int :=
  ⟨shape, fun idx => 64 * (coord idx 2 : Int) + 8 * (coord idx 1 : Int) + (coord idx 0 : Int)⟩

end EnzymeJax.TransposeSlices
