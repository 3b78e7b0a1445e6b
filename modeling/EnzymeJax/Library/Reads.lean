import EnzymeJax.Library.Beside

/-!
# Slices and pads by their coordinates

What a slice or a pad takes is up to each dimension alone: an element is read at the coordinates that the
dimensions give, and the operation is well formed if each dimension is.
-/

namespace Tensor

open List Option

variable {α : Type*}

theorem eq_of_coord {l l' : List Nat} (hlen : l.length = l'.length)
    (h : ∀ d < l.length, coord l d = coord l' d) : l = l' := by
  refine ext_getElem hlen fun d hd hd' => ?_
  rw [← coord_eq_getElem, ← coord_eq_getElem, h d hd]

theorem getD_set {β : Type*} {l : List β} {a b : β} {d e : Nat} (hd : d < l.length) :
    (l.set d a).getD e b = if e = d then a else l.getD e b := by
  rw [getD_eq_getElem?_getD, getElem?_set]
  by_cases hed : e = d
  · rw [if_pos hed, if_pos hed.symm, if_pos hd]
    rfl
  · rw [if_neg hed, if_neg (Ne.symm hed), getD_eq_getElem?_getD]

/-! ### Slices -/

def sliceDim (ds : List SliceDim) (d : Nat) : SliceDim := ds.getD d ⟨0, 0, 1⟩

variable {shape : List Nat}

section

variable {ds : List SliceDim} {x y : Tensor α} {d : Nat}

theorem sliceDim_eq_getElem (hd : d < ds.length) : sliceDim ds d = ds[d] := getD_eq_getElem _ _ hd

theorem forall₂_ok_iff : Forall₂ SliceDim.Ok ds shape ↔
    ds.length = shape.length ∧ ∀ d < ds.length, (sliceDim ds d).Ok (coord shape d) := by
  rw [forall₂_iff_get]
  refine and_congr_right fun hlen => ?_
  constructor
  · intro h d hd
    rw [sliceDim_eq_getElem hd, coord_eq_getElem (hlen ▸ hd)]
    exact h d hd (hlen ▸ hd)
  · intro h d hd hd'
    have hat := h d hd
    rwa [sliceDim_eq_getElem hd, coord_eq_getElem hd'] at hat

theorem exists_slice (hlen : ds.length = x.shape.length)
    (hok : ∀ d < ds.length, (sliceDim ds d).Ok (coord x.shape d)) : ∃ y, slice ds x = some y :=
  ⟨_, if_pos (forall₂_ok_iff.mpr ⟨hlen, hok⟩)⟩

section

variable (h : slice ds x = some y)

include h

theorem read_slice : ds.length = x.shape.length ∧
    y.shape = ds.map SliceDim.size ∧ (∀ d < ds.length, (sliceDim ds d).Ok (coord x.shape d)) ∧
      ∀ c, Within y.shape c → y.read c = x.read fun d => (sliceDim ds d).source (c d) := by
  obtain ⟨hok, hgathers⟩ := gathers_slice h
  obtain ⟨hlen, hdims⟩ := forall₂_ok_iff.mp hok
  refine ⟨hlen, hgathers.shape_eq, hdims, fun c hc => ?_⟩
  rw [hgathers.shape_eq] at hc
  rw [hgathers.read_eq (by rw [length_map, hlen]) hc]
  refine read_congr _ fun d hd => ?_
  have hd' : d < ds.length := hlen ▸ hd
  rw [sliceSource, sliceDim_eq_getElem hd', getElem?_eq_getElem hd']
  rfl

theorem coord_slice (hd : d < ds.length) :
    coord y.shape d = (sliceDim ds d).size := by
  obtain ⟨-, hshape, -, -⟩ := read_slice h
  rw [hshape, coord_map _ _ hd, sliceDim_eq_getElem hd]

theorem length_slice : y.shape.length = ds.length := by
  obtain ⟨-, hshape, -, -⟩ := read_slice h
  rw [hshape, length_map]

theorem within_source {c : Nat → Nat} (hc : Within y.shape c) :
    Within x.shape fun d => (sliceDim ds d).source (c d) := by
  obtain ⟨hlen, -, hok, -⟩ := read_slice h
  intro d hd
  have hd' : d < ds.length := hlen ▸ hd
  exact SliceDim.source_lt (hok d hd') (coord_slice h hd' ▸ hc d (by rwa [length_slice h]))

end

end

namespace SliceDim

variable {d e : SliceDim} {n k : Nat}

theorem lt_size_iff (hstride : 0 < d.stride) : k < d.size ↔ d.start + k * d.stride < d.limit := by
  rw [SliceDim.size, Int.lt_toNat, ← Int.add_one_le_iff, Int.le_ediv_iff_mul_le hstride, add_mul, one_mul]
  omega

theorem source_of_ok (hd : d.Ok n) (k : Nat) : (d.source k : Int) = d.start + k * d.stride := by
  have hoffset : 0 ≤ (k : Int) * d.stride := mul_nonneg (by omega) hd.2.2.2.le
  rw [SliceDim.source, Int.toNat_of_nonneg (add_nonneg hd.1 hoffset)]

/-- Slices of one dimension have the same extent if they end at the same element. -/
theorem size_eq_of_lt_iff (hd : 0 < d.stride) (h : ∀ k : Nat, d.start + k * d.stride < d.limit ↔ k < n) : d.size = n :=
  eq_of_forall_lt_iff fun k => by rw [lt_size_iff hd, h k]

end SliceDim

theorem sliceDim_set {ds : List SliceDim} {s : SliceDim} {dim : Nat} (hd : dim < ds.length) (e : Nat) :
    sliceDim (ds.set dim s) e = if e = dim then s else sliceDim ds e := getD_set hd

theorem slice_set {ds : List SliceDim} {v : Tensor α} {dim a b : Nat} (hd : dim < shape.length)
    (hlen : ds.length = shape.length) (hok : ∀ d < ds.length, d ≠ dim → (sliceDim ds d).Ok (coord shape d))
    (hv : v.shape.set dim 0 = shape.set dim 0) (hab : a ≤ b) (hb : b ≤ coord v.shape dim) :
    ∃ t, slice (ds.set dim ⟨a, b, 1⟩) v = some t ∧ t.shape.set dim 0 = (ds.map SliceDim.size).set dim 0 ∧
      coord t.shape dim = b - a ∧ ∀ c, (∀ d < ds.length, d ≠ dim → c d < (sliceDim ds d).size) → c dim < b - a →
          t.read c = v.read (taken dim (fun d => (sliceDim ds d).source) (a + c dim) c) := by
  have hd' : dim < ds.length := hlen ▸ hd
  have hrank : v.shape.length = shape.length := by
    have hlengths := congrArg length hv
    rwa [length_set, length_set] at hlengths
  obtain ⟨t, ht⟩ : ∃ t, slice (ds.set dim ⟨a, b, 1⟩) v = some t := exists_slice
    (by rw [length_set, hlen, hrank]) fun e he => by
      rw [length_set] at he
      rw [sliceDim_set hd']
      split
      · rename_i hed
        rw [hed]
        exact ⟨Int.natCast_nonneg a, Int.ofNat_le.mpr hab, Int.ofNat_le.mpr hb, Int.one_pos⟩
      · rename_i hed
        have hcoord := congrArg (coord · e) hv
        rw [coord_set_of_ne hed, coord_set_of_ne hed] at hcoord
        rw [hcoord]
        exact hok e he hed
  obtain ⟨-, hshape, -, hread⟩ := read_slice ht
  have hsize : ∀ e < ds.length, coord t.shape e = if e = dim then b - a else (sliceDim ds e).size := by
    intro e he
    rw [coord_slice ht (by rwa [length_set]), sliceDim_set hd']
    split
    · rw [SliceDim.size]
      change Int.toNat (((b : Int) - a + 1 - 1) / 1) = _
      omega
    · rfl
  refine ⟨t, ht, ?_, by rw [hsize dim hd', if_pos rfl], fun c hc hlt => ?_⟩
  · rw [hshape, map_set, set_set]
  · rw [hread c]
    · refine read_congr v fun e _ => ?_
      rw [sliceDim_set hd', taken]
      split
      · rename_i hed
        rw [hed, SliceDim.source]
        change ((a : Int) + c dim * 1).toNat = _
        omega
      · rfl
    · intro e he
      rw [length_slice ht, length_set] at he
      rw [hsize e he]
      split
      · rename_i hed
        rwa [hed]
      · rename_i hed
        exact hc e he hed

/-! ### Pads -/

def padDim (ds : List PadDim) (d : Nat) : PadDim := ds.getD d ⟨0, 0, 0⟩

section

variable {ds : List PadDim} {v : α} {x y : Tensor α} {d : Nat}

theorem padDim_eq_getElem (hd : d < ds.length) : padDim ds d = ds[d] := getD_eq_getElem _ _ hd

theorem exists_pad (v : α) (hlen : ds.length = x.shape.length)
    (hok : ∀ d < ds.length, (padDim ds d).Ok (coord x.shape d)) : ∃ y, pad ds v x = some y := by
  refine ⟨_, if_pos (forall₂_iff_get.mpr ⟨hlen, fun d hd hd' => ?_⟩)⟩
  have hat := hok d hd
  rwa [padDim_eq_getElem hd, coord_eq_getElem hd'] at hat

theorem shape_pad (h : pad ds v x = some y) : ds.length = x.shape.length ∧
    y.shape.length = ds.length ∧ ∀ d < ds.length, (padDim ds d).Ok (coord x.shape d) ∧
      coord y.shape d = ((padDim ds d).size (coord x.shape d)).toNat := by
  rw [pad] at h
  split at h
  · rename_i hok
    cases h
    have hlen := hok.length_eq
    have hshape : (List.zipWith (fun d dim => (PadDim.size d dim).toNat) ds x.shape).length = ds.length := by
      rw [length_zipWith, ← hlen, min_self]
    refine ⟨hlen, hshape, fun d hd => ?_⟩
    rw [padDim_eq_getElem hd, coord_eq_getElem (hlen ▸ hd)]
    refine ⟨(forall₂_iff_get.mp hok).2 d hd (hlen ▸ hd), ?_⟩
    rw [coord_eq_getElem (hshape.symm ▸ hd), getElem_zipWith]
  · cases h

theorem read_pad (h : pad ds v x = some y) (c : Nat → Nat) :
    (∀ p : Nat → Nat, (∀ d < ds.length, (padDim ds d).source (coord x.shape d) (c d) = some (p d)) →
      y.read c = x.read p) ∧
    ((∃ d < ds.length, (padDim ds d).source (coord x.shape d) (c d) = none) → y.read c = v) := by
  obtain ⟨hlen, hrank, -⟩ := shape_pad h
  have hidx : ((range y.shape.length).map c).length = ds.length := by
    rw [length_map, length_range, hrank]
  have hcoord : ∀ d < ds.length, coord ((range y.shape.length).map c) d = c d := fun d hd =>
    coord_map_range _ (hrank.symm ▸ hd)
  have hget : y.read c = ((allSome (zipWith3 (fun d dim (q : Nat) => PadDim.source d dim q) ds x.shape
      ((range y.shape.length).map c))).map x.get).getD v := by
    obtain ⟨-, hsome⟩ := ite_none_right_eq_some.mp h
    rw [← some.inj hsome]
    rfl
  constructor
  · intro p hp
    have hall : allSome (zipWith3 (fun d dim (q : Nat) => PadDim.source d dim q) ds x.shape
        ((range y.shape.length).map c)) = some ((range x.shape.length).map p) := by
      refine (allSome_zipWith3_iff hlen.symm hidx).mpr ⟨by simp [hlen], fun d a b ha hb => ?_⟩
      obtain ⟨hd, rfl⟩ := List.getElem?_eq_some_iff.mp ha
      obtain ⟨hd', rfl⟩ := List.getElem?_eq_some_iff.mp hb
      rw [hcoord d hd, getElem_map, getElem_range, ← hp d hd, padDim_eq_getElem hd]
    rw [hget, hall]
    rfl
  · rintro ⟨d, hd, hnone⟩
    have hall : allSome (zipWith3 (fun d dim (q : Nat) => PadDim.source d dim q) ds x.shape
        ((range y.shape.length).map c)) = none := by
      refine eq_none_iff_forall_ne_some.mpr fun r hr => ?_
      obtain ⟨b, hb⟩ := (exists_allSome_zipWith3_iff hlen.symm hidx).mp ⟨r, hr⟩ d ds[d]
        (getElem?_eq_getElem hd)
      rw [hcoord d hd, ← padDim_eq_getElem hd, hnone] at hb
      cases hb
    rw [hget, hall]
    rfl

theorem PadDim.source_of_interior {d : PadDim} {n q : Nat} (h : d.interior = 0) :
    d.source n q = if 0 ≤ q - d.low ∧ q - d.low < n then some (q - d.low).toNat else none := by
  rw [PadDim.source, h, zero_add]
  refine if_congr ?_ (by rw [Int.ediv_one]) rfl
  rw [Int.ediv_one]
  exact and_congr_right fun _ => and_iff_right (one_dvd _)

theorem PadDim.size_of_interior {d : PadDim} {n : Nat} (h : d.interior = 0) : d.size n = d.low + n + d.high := by
  rw [PadDim.size, PadDim.dilated, h, mul_zero, add_zero]

/-- The shape of a tensor that is padded. -/
def edgePadded (ds : List PadDim) (shape : List Nat) : List Nat :=
  List.zipWith (fun d dim => (d.size dim).toNat) ds shape

theorem shape_edgePadded (h : pad ds v x = some y) : y.shape = edgePadded ds x.shape := by
  obtain ⟨-, h⟩ := ite_none_right_eq_some.mp h
  rw [← some.inj h]
  rfl

theorem length_edgePadded (hds : ds.length = shape.length) : (edgePadded ds shape).length = shape.length := by
  rw [edgePadded, length_zipWith, hds, min_self]

theorem coord_edgePadded (hds : ds.length = shape.length) (hedge : ∀ e ∈ ds, e.interior = 0)
    (hd : d < shape.length) : coord (edgePadded ds shape) d =
      ((padDim ds d).low + coord shape d + (padDim ds d).high).toNat := by
  have hd' : d < ds.length := hds.symm ▸ hd
  rw [edgePadded, coord_eq_getElem (by simp [hds, hd]), getElem_zipWith,
    PadDim.size_of_interior (hedge _ (getElem_mem hd')), padDim_eq_getElem hd', coord_eq_getElem hd]

theorem same_of_pad_zero (h : pad ds v x = some y) (hzero : ∀ d < ds.length, padDim ds d = ⟨0, 0, 0⟩) :
    Same y x := by
  obtain ⟨hlen, hrank, hshape⟩ := shape_pad h
  have hsize : y.shape = x.shape := by
    refine eq_of_coord (hrank.trans hlen) fun d hd => ?_
    rw [(hshape d (hrank ▸ hd)).2, hzero d (hrank ▸ hd), PadDim.size_of_interior rfl]
    change ((0 : Int) + coord x.shape d + 0).toNat = _
    omega
  refine same_of_read hsize fun c hc => (read_pad h c).1 c fun d hd => ?_
  have hlt := hc d (hrank.symm ▸ hd)
  rw [hsize] at hlt
  rw [hzero d hd, PadDim.source_of_interior rfl]
  change (if 0 ≤ (c d : Int) - 0 ∧ (c d : Int) - 0 < _ then some ((c d : Int) - 0).toNat else none) = _
  rw [sub_zero, if_pos ⟨Int.natCast_nonneg _, Int.ofNat_lt.mpr hlt⟩, Int.toNat_natCast]

end

end Tensor
