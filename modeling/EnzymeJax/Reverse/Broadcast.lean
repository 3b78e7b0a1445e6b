import EnzymeJax.Library.Layout

/-!
# The reverse rule of broadcast_in_dim

`AutoDiffBroadcastInDimRev` sums the cotangent along the dimensions that were broadcast, restores them with extent 1,
and puts the operand's dimensions in order. The sum over the elements that read one element comes out.
-/

namespace EnzymeJax

open Tensor Finset Option
open List hiding transpose

/-! ### The rule -/

section

variable (inShape bcastDims outShape : List Nat)

/-- The dimensions that no dimension of the operand is mapped to, or one that is expanded. -/
def reducedDims : List Nat :=
  (List.range outShape.length).filter fun d =>
    d ∉ bcastDims ∨ coord outShape d ≠ coord inShape (bcastDims.idxOf d)

def iterShape : List Nat :=
  ((List.range outShape.length).filter fun d =>
    d ∈ bcastDims ∧ coord outShape d = coord inShape (bcastDims.idxOf d)).map
      fun d => coord inShape (bcastDims.idxOf d)

def reshapedShape : List Nat :=
  outShape.mapIdx fun i sz => if i ∈ reducedDims inShape bcastDims outShape then 1 else sz

/-- The entries of `mapping` for the given dimensions, where `next` is the first free number. -/
def mappingFrom (next : Nat) : List Nat → List Nat
  | [] => []
  | i :: dims =>
    if i ∈ bcastDims then bcastDims.idxOf i :: mappingFrom next dims
    else next :: mappingFrom (next + 1) dims

def mapping (rank : Nat) : List Nat := mappingFrom bcastDims bcastDims.length (List.range rank)

/-- The inverse of `mapping`. -/
def perm (rank : Nat) : List Nat :=
  (List.range rank).map fun e => (mapping bcastDims rank).idxOf e

def reverseBroadcastInDim {R : Type*} [AddCommMonoid R] (inDiffe : Tensor R) :
    Option (Tensor R) := do
  let red ← reduceAdd (reducedDims inShape bcastDims outShape) inDiffe
  if red.shape = iterShape inShape bcastDims outShape then
    let reshapedRed ← reshape (reshapedShape inShape bcastDims outShape) red
    let transposedVal ← transpose (perm bcastDims outShape.length) reshapedRed
    reshape inShape transposedVal
  else none

end

/-! ### The permutation -/

/-- The dimensions of the result that are new, in order. -/
def newDims (bcastDims : List Nat) (rank : Nat) : List Nat :=
  (List.range rank).filter (· ∉ bcastDims)

theorem mappingFrom_eq {bcastDims dims : List Nat} (before : List Nat) (hdisjoint : ∀ d ∈ dims, d ∉ before)
    (hdims : dims.Nodup) :
    mappingFrom bcastDims (bcastDims.length + before.length) dims =
      dims.map fun d => (bcastDims ++ (before ++ dims.filter (· ∉ bcastDims))).idxOf d := by
  induction dims generalizing before with
  | nil => rfl
  | cons i dims ih =>
    obtain ⟨hi, hdims⟩ := nodup_cons.mp hdims
    have hrest : ∀ d ∈ dims, d ∉ before := fun d hd => hdisjoint d (mem_cons_of_mem _ hd)
    rw [mappingFrom]
    by_cases hmem : i ∈ bcastDims
    · simp only [hmem, if_true, not_true_eq_false, decide_false, Bool.false_eq_true,
        not_false_eq_true, List.filter_cons_of_neg, List.map_cons, idxOf_append_of_mem hmem]
      rw [ih before hrest hdims]
    · have hdisjoint' : ∀ d ∈ dims, d ∉ before ++ [i] := by
        intro d hd hin
        rcases mem_append.mp hin with hin | hin
        · exact hrest d hd hin
        · rw [List.mem_singleton.mp hin] at hd
          exact hi hd
      have hnext := ih (before ++ [i]) hdisjoint' hdims
      rw [length_append, length_singleton, ← add_assoc] at hnext
      simp only [hmem, if_false, not_false_eq_true, decide_true, List.filter_cons_of_pos,
        List.map_cons, hnext, append_assoc, singleton_append]
      rw [idxOf_append_of_notMem hmem, idxOf_append_of_notMem (hdisjoint i mem_cons_self), idxOf_cons_self,
        add_zero, add_comm]

theorem append_newDims_perm {bcastDims : List Nat} {rank : Nat} (hnodup : bcastDims.Nodup)
    (hlt : ∀ d ∈ bcastDims, d < rank) : (bcastDims ++ newDims bcastDims rank).Perm (range rank) := by
  have hnodup' : (bcastDims ++ newDims bcastDims rank).Nodup := by
    refine hnodup.append (nodup_range.filter _) ?_
    intro d hd hd'
    simpa [newDims, hd] using (mem_filter.mp hd').2
  refine (perm_ext_iff_of_nodup hnodup' nodup_range).mpr fun d => ?_
  simp only [newDims, mem_append, List.mem_filter, List.mem_range, decide_eq_true_eq]
  constructor
  · rintro (hd | ⟨hd, -⟩)
    · exact hlt d hd
    · exact hd
  · intro hd
    by_cases hmem : d ∈ bcastDims
    · exact .inl hmem
    · exact .inr ⟨hd, hmem⟩

theorem idxOf_map_idxOf {l : List Nat} {rank e : Nat} (hl : l.Perm (List.range rank)) (he : e < rank) :
    ((List.range rank).map fun d => l.idxOf d).idxOf e = coord l e := by
  have hlen : e < l.length := by rwa [hl.length_eq, length_range]
  have hlt : l[e] < rank := List.mem_range.mp (hl.mem_iff.mp (getElem_mem hlen))
  have hnodup : ((List.range rank).map fun d => l.idxOf d).Nodup := by
    refine nodup_range.map_on fun d hd d' _ heq => ?_
    exact (idxOf_inj (hl.mem_iff.mpr hd)).mp heq
  have hlen' : l[e] < ((List.range rank).map fun d => l.idxOf d).length := by simpa using hlt
  have hentry : e = ((List.range rank).map fun d => l.idxOf d)[l[e]] := by
    rw [getElem_map, getElem_range, Nodup.idxOf_getElem (hl.nodup_iff.mpr nodup_range)]
  rw [coord, getD_eq_getElem _ _ hlen]
  conv_lhs => rw [hentry]
  exact hnodup.idxOf_getElem _ _

theorem perm_eq {bcastDims : List Nat} {rank : Nat} (hnodup : bcastDims.Nodup) (hlt : ∀ d ∈ bcastDims, d < rank) :
    perm bcastDims rank = bcastDims ++ newDims bcastDims rank := by
  have hperm := append_newDims_perm hnodup hlt
  have hlen : (bcastDims ++ newDims bcastDims rank).length = rank := by
    rw [hperm.length_eq, length_range]
  have hmapping : mapping bcastDims rank =
      (List.range rank).map fun d => (bcastDims ++ newDims bcastDims rank).idxOf d :=
    mappingFrom_eq [] (fun d _ => not_mem_nil) nodup_range
  refine ext_getElem (by simp [perm, hlen]) fun e he _ => ?_
  have he' : e < rank := by simpa [perm] using he
  simp only [perm, hmapping, getElem_map, getElem_range]
  rw [idxOf_map_idxOf hperm he', coord, getD_eq_getElem]

/-! ### The shapes -/

section

variable {inShape bcastDims outShape : List Nat}

variable {d b : Nat} {idx j : List Nat} {R : Type*}

theorem mem_reducedDims (hd : d < outShape.length) : d ∉ reducedDims inShape bcastDims outShape ↔
      d ∈ bcastDims ∧ coord outShape d = coord inShape (bcastDims.idxOf d) := by
  simp [reducedDims, hd]

theorem iterShape_eq :
    dropDims (reducedDims inShape bcastDims outShape) 0 outShape = iterShape inShape bcastDims outShape := by
  rw [dropDims_eq_map, iterShape]
  have hfilter : ((List.range outShape.length).filter fun d =>
      0 + d ∉ reducedDims inShape bcastDims outShape) =
      (List.range outShape.length).filter fun d =>
        d ∈ bcastDims ∧ coord outShape d = coord inShape (bcastDims.idxOf d) := by
    refine List.filter_congr fun d hd => ?_
    rw [Nat.zero_add]
    exact decide_eq_decide.mpr (mem_reducedDims (List.mem_range.mp hd))
  rw [hfilter]
  refine map_congr_left fun d hd => ?_
  exact (of_decide_eq_true (List.mem_filter.mp hd).2).2

section

variable (hok : BroadcastOk inShape bcastDims outShape) (hb : b < bcastDims.length)

include hok hb

theorem coord_mem_of_broadcastOk :
    bcastDims[b] < outShape.length ∧ (coord inShape b = 1 ∨ coord inShape b = coord outShape bcastDims[b]) := by
  rw [← coord_eq_getElem hb]
  exact (broadcastOk_iff.mp hok).2.2 b hb

theorem coord_reshapedShape :
    coord (reshapedShape inShape bcastDims outShape) bcastDims[b] = coord inShape b := by
  obtain ⟨hlt, hextent⟩ := coord_mem_of_broadcastOk hok hb
  have hmem : bcastDims[b] ∈ bcastDims := getElem_mem hb
  have hidx : bcastDims.idxOf bcastDims[b] = b := hok.2.1.idxOf_getElem _ _
  have hreduced : bcastDims[b] ∉ reducedDims inShape bcastDims outShape ↔
      coord outShape bcastDims[b] = coord inShape b := by
    rw [mem_reducedDims hlt, hidx, and_iff_right hmem]
  have hlt' : bcastDims[b] < (reshapedShape inShape bcastDims outShape).length := by
    simpa [reshapedShape] using hlt
  rw [coord, getD_eq_getElem _ _ hlt']
  simp only [reshapedShape, getElem_mapIdx]
  split
  · rename_i hin
    rcases hextent with hone | heq
    · exact hone.symm
    · exact absurd (hreduced.mpr heq.symm) (not_not.mpr hin)
  · rename_i hin
    rw [← hreduced.mp hin, coord, getD_eq_getElem _ _ hlt]

end

theorem coord_reshapedShape_new (hd : d ∈ newDims bcastDims outShape.length) :
    coord (reshapedShape inShape bcastDims outShape) d = 1 := by
  obtain ⟨hlt, hnew⟩ := mem_filter.mp hd
  have hlt := List.mem_range.mp hlt
  have hlt' : d < (reshapedShape inShape bcastDims outShape).length := by
    simpa [reshapedShape] using hlt
  have hin : d ∈ reducedDims inShape bcastDims outShape := by
    by_contra hout
    exact of_decide_eq_true hnew ((mem_reducedDims hlt).mp hout).1
  rw [coord, getD_eq_getElem _ _ hlt']
  simp only [reshapedShape, getElem_mapIdx, hin, if_true]

theorem transposed_shape (hok : BroadcastOk inShape bcastDims outShape) :
    (perm bcastDims outShape.length).map (coord (reshapedShape inShape bcastDims outShape)) =
      inShape ++ replicate (newDims bcastDims outShape.length).length 1 := by
  rw [perm_eq hok.2.1 hok.2.2.1, map_append]
  congr 1
  · refine ext_getElem (by simp [hok.1]) fun b hb hb' => ?_
    rw [getElem_map, coord_reshapedShape hok, coord, getD_eq_getElem]
  · exact map_eq_replicate_iff.mpr fun d hd => coord_reshapedShape_new hd

/-! ### The cotangent -/

/-- The index of the operand that an element of the result reads. -/
def broadcastSource (inShape bcastDims idx : List Nat) : List Nat :=
  List.zipWith (fun n d => if n = 1 then 0 else coord idx d) inShape bcastDims

/-- The index before the transpose: an entry of the operand's index, or zero. -/
def reducedIndex (bcastDims : List Nat) (rank : Nat) (idx : List Nat) : List Nat :=
  (List.range rank).map fun d =>
    coord (idx ++ List.replicate (newDims bcastDims rank).length 0)
      ((perm bcastDims rank).idxOf d)

section

variable (hok : BroadcastOk inShape bcastDims outShape) (hidx : idx ∈ indices inShape)

include hok hidx

theorem coord_reducedIndex (hb : b < bcastDims.length) :
    coord (reducedIndex bcastDims outShape.length idx) bcastDims[b] = coord idx b := by
  have hlt := (coord_mem_of_broadcastOk hok hb).1
  have hb' : b < idx.length := by rwa [length_of_mem_indices hidx, ← hok.1]
  rw [coord, getD_eq_getElem _ _ (by simpa [reducedIndex] using hlt)]
  simp only [reducedIndex, getElem_map, getElem_range]
  rw [perm_eq hok.2.1 hok.2.2.1, idxOf_append_of_mem (getElem_mem hb),
    hok.2.1.idxOf_getElem, coord, coord, getD_append _ _ _ _ hb']

theorem reducedIndex_mem :
    reducedIndex bcastDims outShape.length idx ∈
      indices (reshapedShape inShape bcastDims outShape) := by
  have hperm := append_newDims_perm hok.2.1 hok.2.2.1
  have hmem := append_zeros_mem_indices hidx (newDims bcastDims outShape.length).length
  rw [← transposed_shape hok] at hmem
  rw [mem_indices, forall₂_iff_get]
  refine ⟨by simp [reducedIndex, reshapedShape], fun d hd hd' => ?_⟩
  have hd'' : d < outShape.length := by simpa [reducedIndex] using hd
  have hin : d ∈ perm bcastDims outShape.length := by
    rw [perm_eq hok.2.1 hok.2.2.1]
    exact hperm.mem_iff.mpr (List.mem_range.mpr hd'')
  have hpos := idxOf_lt_length_of_mem hin
  have hlt := coord_lt hmem (d := (perm bcastDims outShape.length).idxOf d) (by simpa using hpos)
  rw [coord_map _ _ hpos, getElem_idxOf hpos, coord.eq_def (reshapedShape _ _ _), getD_eq_getElem _ _ hd'] at hlt
  simpa [reducedIndex] using hlt

/-- The elements of the result summed into an element of the operand are those that read it. -/
theorem dropDims_eq_iff (hj : j ∈ indices outShape) :
    dropDims (reducedDims inShape bcastDims outShape) 0 j = dropDims (reducedDims inShape bcastDims outShape) 0
          (reducedIndex bcastDims outShape.length idx) ↔
      broadcastSource inShape bcastDims j = idx := by
  have hlen : j.length = outShape.length := length_of_mem_indices hj
  have hlen' : (reducedIndex bcastDims outShape.length idx).length = outShape.length := by
    simp [reducedIndex]
  rw [dropDims_eq_map, dropDims_eq_map, hlen, hlen', map_inj_left]
  simp only [Nat.zero_add, List.mem_filter, List.mem_range, decide_eq_true_eq]
  constructor
  · intro hkept
    refine ext_getElem ?_ fun b hb hb' => ?_
    · simp [broadcastSource, hok.1, length_of_mem_indices hidx]
    · obtain ⟨hb₁, hb₂⟩ : b < inShape.length ∧ b < bcastDims.length := by
        simpa [broadcastSource] using hb
      obtain ⟨hlt, hextent⟩ := coord_mem_of_broadcastOk hok hb₂
      have hidxb := coord_lt hidx hb₁
      have hcoord : coord inShape b = inShape[b] := getD_eq_getElem _ _ hb₁
      have hcoord' : coord idx b = idx[b] := getD_eq_getElem _ _ hb'
      simp only [broadcastSource, getElem_zipWith]
      split
      · omega
      · rename_i hne
        have hin : bcastDims[b] ∉ reducedDims inShape bcastDims outShape := by
          refine (mem_reducedDims hlt).mpr ⟨getElem_mem hb₂, ?_⟩
          rw [hok.2.1.idxOf_getElem]
          exact (hextent.resolve_left (hcoord ▸ hne)).symm
        rw [hkept _ ⟨hlt, hin⟩, coord_reducedIndex hok hidx hb₂, hcoord']
  · intro hsrc d hd
    obtain ⟨hd, hkept⟩ := hd
    obtain ⟨hin, heq⟩ := (mem_reducedDims hd).mp hkept
    have hb := idxOf_lt_length_of_mem hin
    have hd' : d = bcastDims[bcastDims.idxOf d] := (getElem_idxOf hb).symm
    generalize bcastDims.idxOf d = b at hb hd' heq
    subst hd'
    have hb₁ : b < inShape.length := hok.1 ▸ hb
    have hjd := coord_lt hj hd
    have hcoord : coord inShape b = inShape[b] := getD_eq_getElem _ _ hb₁
    rw [coord_reducedIndex hok hidx hb, ← hsrc, broadcastSource, coord.eq_def (zipWith ..),
      getD_eq_getElem _ _ (by simp [hb, hb₁]), getElem_zipWith]
    split
    · omega
    · rfl

end

theorem reshapedShape_eq :
    reshapedShape inShape bcastDims outShape = outShape.mapIdx fun i n =>
      if 0 + i ∈ reducedDims inShape bcastDims outShape then 1 else n := by
  simp [reshapedShape]

theorem reverseBroadcastInDim_eq [AddCommMonoid R] (hok : BroadcastOk inShape bcastDims outShape)
    {y : Tensor R} (hy : y.shape = outShape) :
    ∃ b, reverseBroadcastInDim inShape bcastDims outShape y = some b ∧ b.shape = inShape ∧
      ∀ idx ∈ indices inShape, b.get idx =
        ∑ j ∈ indices outShape with broadcastSource inShape bcastDims j = idx, y.get j := by
  have hreduced : (reducedDims inShape bcastDims outShape).Nodup ∧
      ∀ d ∈ reducedDims inShape bcastDims outShape, d < y.shape.length := by
    refine ⟨nodup_range.filter _, fun d hd => ?_⟩
    rw [hy]
    exact List.mem_range.mp (List.mem_filter.mp hd).1
  have hreshape : (reshapedShape inShape bcastDims outShape).prod =
      (dropDims (reducedDims inShape bcastDims outShape) 0 y.shape).prod := by
    rw [reshapedShape_eq, prod_dropDims, hy]
  have hlen : (reshapedShape inShape bcastDims outShape).length = outShape.length := by
    simp [reshapedShape]
  have hperm : (perm bcastDims outShape.length).Perm
      (range (reshapedShape inShape bcastDims outShape).length) := by
    rw [hlen, perm_eq hok.2.1 hok.2.2.1]
    exact append_newDims_perm hok.2.1 hok.2.2.1
  have hprod : inShape.prod = ((perm bcastDims outShape.length).map
      (coord (reshapedShape inShape bcastDims outShape))).prod := by
    rw [transposed_shape hok, prod_append_ones]
  simp only [reverseBroadcastInDim, reduceAdd, if_pos hreduced, bind_eq_bind, bind_some]
  rw [if_pos (hy ▸ iterShape_eq), reshape, if_pos hreshape, bind_some, transpose,
    if_pos hperm, bind_some, reshape, if_pos hprod]
  refine ⟨_, rfl, rfl, fun idx hidx => ?_⟩
  have hmem := reducedIndex_mem hok hidx
  have hzeros : unravel ((perm bcastDims outShape.length).map
      (coord (reshapedShape inShape bcastDims outShape))) (ravel inShape idx) =
        idx ++ replicate (newDims bcastDims outShape.length).length 0 := by
    rw [← ravel_append_ones hidx (newDims bcastDims outShape.length).length, transposed_shape hok]
    exact unravel_ravel (append_zeros_mem_indices hidx _)
  have hindex : reducedIndex bcastDims outShape.length idx =
      (List.range (reshapedShape inShape bcastDims outShape).length).map fun d =>
        coord (idx ++ replicate (newDims bcastDims outShape.length).length 0)
          ((perm bcastDims outShape.length).idxOf d) := by
    rw [hlen]
    rfl
  obtain ⟨hdrop, hravel⟩ := ravel_dropDims (reshapedShape_eq ▸ hmem)
  rw [← reshapedShape_eq] at hravel
  simp only [hzeros, ← hindex, hravel, hy, unravel_ravel hdrop]
  refine sum_congr (filter_congr fun j hj => ?_) fun _ _ => rfl
  exact dropDims_eq_iff hok hidx hj

theorem broadcastSource_mem (hok : BroadcastOk inShape bcastDims outShape) (hj : j ∈ indices outShape) :
    broadcastSource inShape bcastDims j ∈ indices inShape := by
  rw [mem_indices, forall₂_iff_get]
  refine ⟨by simp [broadcastSource, hok.1], fun b hb hb' => ?_⟩
  have hb₂ : b < bcastDims.length := hok.1 ▸ hb'
  obtain ⟨hlt, hextent⟩ := coord_mem_of_broadcastOk hok hb₂
  have hjd := coord_lt hj hlt
  have hcoord : coord inShape b = inShape[b] := getD_eq_getElem _ _ hb'
  simp only [broadcastSource, get_eq_getElem, getElem_zipWith]
  split <;> omega

theorem dot_reverseBroadcastInDim [CommRing R] {x t y b : Tensor R}
    (ht : broadcastInDim x bcastDims outShape = some t) (hy : y.shape = outShape)
    (hb : reverseBroadcastInDim x.shape bcastDims outShape y = some b) : dot t y = dot x b := by
  rw [broadcastInDim] at ht
  split at ht
  · rename_i hok
    cases ht
    obtain ⟨b', hb', -, hget⟩ := reverseBroadcastInDim_eq hok hy
    cases hb.symm.trans hb'
    refine (sum_mul_comp (fun j hj => broadcastSource_mem hok hj) x.get y.get).trans ?_
    exact sum_congr rfl fun idx hidx => by rw [hget idx hidx]
  · cases ht

end

end EnzymeJax
