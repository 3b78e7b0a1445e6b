import EnzymeJax.Library.Gather
import EnzymeJax.Library.Symmetry

/-!
# Operations on transposes

An operation that acts on each dimension by itself gives the same on a tensor and on its transpose, if what
it does to a dimension is taken along with the dimension.
-/

namespace Tensor

open List Function

variable {α β γ : Type*}

/-! ### Permutations of the dimensions -/

section

variable {perm : List Nat} {n d e : Nat}

section

variable (hperm : perm.Perm (range n))

include hperm

theorem coord_lt_of_perm (hd : d < n) : coord perm d < n := by
  have hd' : d < perm.length := by rwa [hperm.length_eq, length_range]
  rw [coord_eq_getElem hd']
  exact mem_range.mp (hperm.mem_iff.mp (getElem_mem hd'))

theorem idxOf_coord (hd : d < n) : perm.idxOf (coord perm d) = d := by
  have hd' : d < perm.length := by rwa [hperm.length_eq, length_range]
  rw [coord_eq_getElem hd', Nodup.idxOf_getElem (hperm.nodup_iff.mpr nodup_range)]

theorem idxOf_lt (he : e < n) : perm.idxOf e < n := by
  have hlt := idxOf_lt_length_of_mem (hperm.mem_iff.mpr (mem_range.mpr he))
  rwa [hperm.length_eq, length_range] at hlt

theorem coord_idxOf (he : e < n) : coord perm (perm.idxOf e) = e := by
  have hlt := idxOf_lt_length_of_mem (hperm.mem_iff.mpr (mem_range.mpr he))
  rw [coord_eq_getElem hlt, getElem_idxOf hlt]

end

/-- Entry `d` of the first list is entry `perm[d]` of the second. -/
structure Permutes (perm : List Nat) (a b : List β) : Prop where
  length_left : a.length = perm.length
  length_right : b.length = perm.length
  get_eq : ∀ d < perm.length, a[d]? = b[coord perm d]?

theorem Permutes.coord_eq {a b : List Nat} (h : Permutes perm a b) (hd : d < perm.length) :
    coord a d = coord b (coord perm d) := by
  rw [coord, coord, getD_eq_getElem?_getD, getD_eq_getElem?_getD, h.get_eq d hd]

variable {a b : List β} {R : β → γ → Prop}

theorem Permutes.map (f : β → γ) (h : Permutes perm a b) : Permutes perm (a.map f) (b.map f) :=
  ⟨by rw [length_map, h.length_left], by rw [length_map, h.length_right], fun d hd => by
    rw [getElem?_map, getElem?_map, h.get_eq d hd]⟩

theorem forall₂_iff_getElem {l : List β} {l' : List γ} : Forall₂ R l l' ↔
    l.length = l'.length ∧ ∀ (d : Nat) b c, l[d]? = some b → l'[d]? = some c → R b c := by
  rw [forall₂_iff_get]
  refine and_congr_right fun _ => ?_
  constructor
  · intro h d b c hb hc
    obtain ⟨hd, rfl⟩ := List.getElem?_eq_some_iff.mp hb
    obtain ⟨hd', rfl⟩ := List.getElem?_eq_some_iff.mp hc
    exact h d hd hd'
  · intro h d hd hd'
    exact h d _ _ (getElem?_eq_getElem hd) (getElem?_eq_getElem hd')

theorem Permutes.forall₂_iff {a' b' : List γ} (hperm : perm.Perm (range perm.length)) (h : Permutes perm a b)
    (h' : Permutes perm a' b') : Forall₂ R a a' ↔ Forall₂ R b b' := by
  rw [forall₂_iff_getElem, forall₂_iff_getElem, h.length_left, h'.length_left, h.length_right, h'.length_right]
  refine and_congr_right fun _ => ?_
  constructor
  · intro hR e u v hu hv
    have he : e < perm.length := h.length_right ▸ (List.getElem?_eq_some_iff.mp hu).1
    refine hR (perm.idxOf e) u v ?_ ?_
    · rw [h.get_eq _ (idxOf_lt hperm he), coord_idxOf hperm he, hu]
    · rw [h'.get_eq _ (idxOf_lt hperm he), coord_idxOf hperm he, hv]
  · intro hR d u v hu hv
    have hd : d < perm.length := h.length_left ▸ (List.getElem?_eq_some_iff.mp hu).1
    refine hR (coord perm d) u v ?_ ?_
    · rw [← h.get_eq d hd, hu]
    · rw [← h'.get_eq d hd, hv]

theorem Permutes.forall_iff {P : β → Nat → Nat → Prop} {sizes sizes' shape shape' : List Nat}
    (hperm : perm.Perm (range perm.length)) (h : Permutes perm a b) (hsizes : Permutes perm sizes' sizes)
    (hshape : Permutes perm shape' shape) :
    (∀ (d : Nat) v, a[d]? = some v → P v (coord sizes' d) (coord shape' d)) ↔
      ∀ (e : Nat) v, b[e]? = some v → P v (coord sizes e) (coord shape e) := by
  constructor
  · intro hP e v hv
    have he : e < perm.length := h.length_right ▸ (List.getElem?_eq_some_iff.mp hv).1
    have hlt := idxOf_lt hperm he
    have hat := hP (perm.idxOf e) v (by rw [h.get_eq _ hlt, coord_idxOf hperm he, hv])
    rwa [hsizes.coord_eq hlt, hshape.coord_eq hlt, coord_idxOf hperm he] at hat
  · intro hP d v hv
    have hd : d < perm.length := h.length_left ▸ (List.getElem?_eq_some_iff.mp hv).1
    rw [hsizes.coord_eq hd, hshape.coord_eq hd]
    exact hP (coord perm d) v (by rw [← h.get_eq d hd, hv])

end

/-! ### Reads -/

section

variable {perm sizes sizes' : List Nat} {φ ψ : Nat → Nat → Nat} {x x' y z t u : Tensor α}

theorem same_of_read (hshape : x.shape = y.shape) (h : ∀ c, Within x.shape c → x.read c = y.read c) :
    Same x y := by
  refine ⟨hshape, fun idx hidx => ?_⟩
  rw [← read_coord x hidx, ← read_coord y (hshape ▸ hidx)]
  exact h _ (within_coord hidx)

variable {c : Nat → Nat}

theorem Same.read_eq (h : Same x y) (hc : Within x.shape c) : x.read c = y.read c := by
  rw [read, read, ← h.shape_eq]
  exact h.get_eq _ hc.mem_indices

theorem Gathers.read_eq (h : Gathers sizes φ x y) (hlen : sizes.length = x.shape.length) (hc : Within sizes c) :
    y.read c = x.read fun d => φ d (c d) := by
  rw [read, read, h.shape_eq, h.get_eq _ hc.mem_indices, ← hlen]
  refine congrArg x.get (ext_getElem (by simp) fun d hd hd' => ?_)
  rw [getElem_mapIdx, getElem_map, getElem_map, getElem_range]

section

variable (h : transpose perm x = some t)

include h

theorem permutes_shape : Permutes perm t.shape x.shape := by
  obtain ⟨hperm, hlen, hdims⟩ := shape_transpose h
  have hperms : perm.length = x.shape.length := by rw [hperm.length_eq, length_range]
  refine ⟨hlen.trans hperms.symm, hperms.symm, fun d hd => ?_⟩
  have hd' : d < x.shape.length := hperms ▸ hd
  obtain ⟨hlt, -, hsize⟩ := hdims d hd'
  rw [getElem?_eq_getElem (hlen.symm ▸ hd'), getElem?_eq_getElem hlt, ← coord_eq_getElem, ← coord_eq_getElem, hsize]

theorem perm_of_transpose : perm.Perm (range perm.length) := by
  have hperm := (shape_transpose h).1
  have hlen : perm.length = x.shape.length := by rw [hperm.length_eq, length_range]
  rwa [hlen]

theorem exists_transpose (hy : y.shape.length = x.shape.length) : ∃ z, transpose perm y = some z := by
  have hperm := (shape_transpose h).1
  rw [← hy] at hperm
  exact ⟨_, if_pos hperm⟩

theorem within_transpose (hc : Within t.shape c) : Within x.shape (c ∘ perm.idxOf) := by
  obtain ⟨hperm, hlen, hdims⟩ := shape_transpose h
  intro e he
  have hlt := idxOf_lt hperm he
  have hbound := hc _ (hlen.symm ▸ hlt)
  rwa [(hdims _ hlt).2.2, coord_idxOf hperm he] at hbound

theorem read_of_transpose (c : Nat → Nat) : x.read c = t.read (c ∘ coord perm) := by
  rw [read_transpose h]
  refine read_congr x fun e he => ?_
  rw [comp_apply, comp_apply, coord_idxOf (shape_transpose h).1 he]

end

theorem same_transpose_iff (hx : transpose perm x = some t) (hy : transpose perm y = some z) :
    Same t z ↔ Same x y := by
  obtain ⟨hperm, hlen, hdims⟩ := shape_transpose hx
  obtain ⟨hperm', hlen', hdims'⟩ := shape_transpose hy
  have hranks : x.shape.length = y.shape.length := by
    have hlengths := hperm.length_eq.symm.trans hperm'.length_eq
    rwa [length_range, length_range] at hlengths
  constructor
  · intro h
    have hshape : x.shape = y.shape := by
      refine ext_getElem hranks fun e he he' => ?_
      have hlt := idxOf_lt hperm he
      have hcoord : coord t.shape (perm.idxOf e) = coord z.shape (perm.idxOf e) := by rw [h.shape_eq]
      rw [(hdims _ hlt).2.2, (hdims' _ (hranks ▸ hlt)).2.2, coord_idxOf hperm he] at hcoord
      rwa [← coord_eq_getElem, ← coord_eq_getElem]
    refine same_of_read hshape fun c hc => ?_
    rw [read_of_transpose hx, read_of_transpose hy]
    refine h.read_eq fun d hd => ?_
    obtain ⟨hlt, -, hsize⟩ := hdims d (hlen ▸ hd)
    rw [hsize]
    exact hc _ hlt
  · intro h
    have hshape : t.shape = z.shape := by
      refine ext_getElem (by rw [hlen, hlen', hranks]) fun d hd hd' => ?_
      rw [← coord_eq_getElem, ← coord_eq_getElem, (hdims d (hlen ▸ hd)).2.2, (hdims' d (hlen' ▸ hd')).2.2, h.shape_eq]
    refine same_of_read hshape fun c hc => ?_
    rw [read_transpose hx, read_transpose hy]
    exact h.read_eq (within_transpose hx hc)

theorem same_of_gathers (ht : transpose perm x = some t) (hx : Gathers sizes φ x x')
    (hz : transpose perm x' = some z) (hy : Gathers sizes' ψ t y) (hsizes : Permutes perm sizes' sizes)
    (hφ : ∀ d < perm.length, ∀ k, ψ d k = φ (coord perm d) k) : Same z y := by
  obtain ⟨hperm, hlen, -⟩ := shape_transpose ht
  have hn : perm.length = x.shape.length := by rw [hperm.length_eq, length_range]
  have hz' := permutes_shape hz
  rw [hx.shape_eq] at hz'
  have hshape : z.shape = y.shape := by
    refine ext_getElem? fun d => ?_
    rw [hy.shape_eq]
    by_cases hd : d < perm.length
    · rw [hz'.get_eq d hd, hsizes.get_eq d hd]
    · rw [getElem?_eq_none (hz'.length_left.symm ▸ not_lt.mp hd),
        getElem?_eq_none (hsizes.length_left.symm ▸ not_lt.mp hd)]
  refine same_of_read hshape fun c hc => ?_
  have hc' := within_transpose hz hc
  rw [hx.shape_eq] at hc'
  rw [read_transpose hz, hx.read_eq (hsizes.length_right.trans hn) hc',
    hy.read_eq (hsizes.length_left.trans (hn.trans hlen.symm)) (by rwa [← hy.shape_eq, ← hshape]),
    read_transpose ht]
  refine read_congr x fun e he => ?_
  have hlt : perm.idxOf e < perm.length := hn.symm ▸ idxOf_lt hperm he
  rw [comp_apply, comp_apply, hφ _ hlt, coord_idxOf hperm he]

/-! ### Slices -/

theorem slice_transpose {ds ds' : List SliceDim} (ht : transpose perm x = some t) (hds : Permutes perm ds' ds) :
    ((∃ y, slice ds' t = some y) ↔ ∃ x', slice ds x = some x') ∧ ∀ x' y, slice ds x = some x' →
      slice ds' t = some y → ∃ z, transpose perm x' = some z ∧ Same z y := by
  have hok := hds.forall₂_iff (R := SliceDim.Ok) (perm_of_transpose ht) (permutes_shape ht)
  have hslice : ∀ (ds : List SliceDim) (x : Tensor α), (∃ y, slice ds x = some y) ↔ Forall₂ SliceDim.Ok ds x.shape := by
    intro ds x
    constructor
    · rintro ⟨y, hy⟩
      exact (gathers_slice hy).1
    · intro h
      rw [slice]
      exact ⟨_, if_pos h⟩
  refine ⟨by rw [hslice, hslice, hok], fun x' y hx' hy => ?_⟩
  obtain ⟨hxok, hx⟩ := gathers_slice hx'
  obtain ⟨z, hz⟩ := exists_transpose ht (y := x') (by
    rw [hx.shape_eq, length_map, hxok.length_eq])
  refine ⟨z, hz, same_of_gathers ht hx hz (gathers_slice hy).2 (hds.map SliceDim.size) fun d hd k => ?_⟩
  rw [sliceSource, sliceSource, hds.get_eq d hd]

theorem dynamicSlice_transpose {starts starts' : List Int} (ht : transpose perm x = some t)
    (hstarts : Permutes perm starts' starts) (hsizes : Permutes perm sizes' sizes) :
    ((∃ y, dynamicSlice starts' sizes' t = some y) ↔ ∃ x', dynamicSlice starts sizes x = some x') ∧
      ∀ x' y, dynamicSlice starts sizes x = some x' → dynamicSlice starts' sizes' t = some y →
        ∃ z, transpose perm x' = some z ∧ Same z y := by
  have hshape := permutes_shape ht
  have hok := hsizes.forall₂_iff (R := (· ≤ ·)) (perm_of_transpose ht) hshape
  have hslice : ∀ (starts : List Int) (sizes : List Nat) (x : Tensor α),
      (∃ y, dynamicSlice starts sizes x = some y) ↔ DynamicSliceOk x.shape sizes starts.length := by
    intro starts sizes x
    constructor
    · rintro ⟨y, hy⟩
      exact (gathers_dynamicSlice hy).1
    · intro h
      rw [dynamicSlice]
      exact ⟨_, if_pos h⟩
  refine ⟨?_, fun x' y hx' hy => ?_⟩
  · rw [hslice, hslice, DynamicSliceOk, DynamicSliceOk, hok, hstarts.length_left, hshape.length_left,
      hstarts.length_right, hshape.length_right]
  obtain ⟨hxok, hx⟩ := gathers_dynamicSlice hx'
  obtain ⟨hyok, hy⟩ := gathers_dynamicSlice hy
  obtain ⟨z, hz⟩ := exists_transpose ht (y := x') (by rw [hx.shape_eq, hxok.2.length_eq])
  refine ⟨z, hz, same_of_gathers ht hx hz hy hsizes fun d hd k => ?_⟩
  have hperm := perm_of_transpose ht
  have hlt := coord_lt_of_perm hperm hd
  rw [coord_clampStarts hyok.1 hyok.2.length_eq (hshape.length_left.symm ▸ hd),
    coord_clampStarts hxok.1 hxok.2.length_eq (hshape.length_right.symm ▸ hlt), hshape.coord_eq hd,
    hsizes.coord_eq hd, getD_eq_getElem?_getD, getD_eq_getElem?_getD, hstarts.get_eq d hd]

end

/-! ### Updates -/

section

variable {ss : List Int} {u x y : Tensor α}

/-- Where an update starts in a dimension. -/
def updateStart (shape sizes : List Nat) (ss : List Int) (d : Nat) : Nat :=
  clampStart (coord shape d) (coord sizes d) (ss.getD d 0)

theorem read_dynamicUpdateSlice (h : dynamicUpdateSlice ss u x = some y) :
    DynamicSliceOk x.shape u.shape ss.length ∧ y.shape = x.shape ∧ ∀ c, Within x.shape c →
      ((∀ d < x.shape.length, updateStart x.shape u.shape ss d ≤ c d ∧
        c d < updateStart x.shape u.shape ss d + coord u.shape d) →
          y.read c = u.read fun d => c d - updateStart x.shape u.shape ss d) ∧
      (¬(∀ d < x.shape.length, updateStart x.shape u.shape ss d ≤ c d ∧
        c d < updateStart x.shape u.shape ss d + coord u.shape d) → y.read c = x.read c) := by
  rw [dynamicUpdateSlice] at h
  split at h
  · rename_i hok
    cases h
    refine ⟨hok, rfl, fun c hc => ?_⟩
    have hclamped := length_clampStarts hok.1 hok.2.length_eq
    have hlen : ((range x.shape.length).map c).length = x.shape.length := by simp
    have hcoord : ∀ d < x.shape.length, coord ((range x.shape.length).map c) d = c d := fun d hd => coord_map_range _ hd
    have hregion : InRegion (zipWith3 clampStart x.shape u.shape ss) u.shape
        ((range x.shape.length).map c) ↔ ∀ d < x.shape.length, updateStart x.shape u.shape ss d ≤ c d ∧
            c d < updateStart x.shape u.shape ss d + coord u.shape d := by
      rw [InRegion, hlen]
      refine forall₂_congr fun d hd => ?_
      rw [coord_clampStarts hok.1 hok.2.length_eq hd, hcoord d hd, updateStart]
      omega
    constructor
    · intro hin
      change ((regionIndex _ _ _).map u.get).getD _ = _
      rw [regionIndex_of_inRegion (hclamped.trans hlen.symm) (hok.2.length_eq.trans hlen.symm) (hregion.mpr hin)]
      refine congrArg u.get (ext_getElem (by simp [hclamped, hok.2.length_eq]) fun d hd hd' => ?_)
      have hd'' : d < x.shape.length := by simpa [hok.2.length_eq] using hd'
      rw [getElem_zipWith, getElem_map, getElem_range, getElem_map,
        getElem_range, ← coord_eq_getElem, coord_clampStarts hok.1 hok.2.length_eq hd'']
      rfl
    · intro hout
      change ((regionIndex _ _ _).map u.get).getD _ = _
      rw [regionIndex_of_not_inRegion (hclamped.trans hlen.symm)
        (hok.2.length_eq.trans hlen.symm) (hregion.not.mpr hout)]
      rfl
  · cases h

end

end Tensor
