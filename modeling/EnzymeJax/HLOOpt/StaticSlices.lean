import EnzymeJax.HLOOpt.ReducePad
import EnzymeJax.Library.IntType
import EnzymeJax.Library.Reads

/-!
# Slices of slices, pads and concatenations

A slice of a slice is composed, of a pad the part of the operand and of the padding is taken, and of a concatenation
the part of each piece.
-/

namespace EnzymeJax.StaticSlices

open Tensor IntType Function
open List hiding allSome
open Option hiding max_eq_left max_eq_right min_eq_left

/-! ### The patterns -/

/-- One dimension of a slice of a slice. The arithmetic is on `int64_t`. -/
def sliceSliceDim (prev next : SliceDim) (size : Nat) : Option SliceDim := do
  let offset ← int64 (prev.stride * next.start)
  let start2 ← int64 (prev.start + offset)
  let step2 ← int64 (prev.stride * next.stride)
  let length ← int64 (next.limit - next.start)
  let extent ← int64 (prev.stride * length)
  let end2 ← int64 (start2 + extent)
  return ⟨if size < start2 then size else start2, if size < end2 then size else end2, step2⟩

def sliceSliceHelper (prev next : List SliceDim) (shape : List Nat) : Option (List SliceDim) :=
  allSome (List.zipWith (fun prev (p : SliceDim × Nat) => sliceSliceDim prev p.1 p.2) prev (List.zip next shape))

inductive PadSlice
  | broadcastres
  | slice (dims : List SliceDim) (pads : List PadDim) (needspad : Bool)

/-- What is sliced of the operand in one dimension, and what is padded to it, if anything. -/
def slicePadDim (s : SliceDim) (p : PadDim) (inshape : Nat) : SliceDim × PadDim × Bool :=
  let low : Int × Int × Bool :=
    if s.start - p.low < 0 then (0, p.low - s.start, true) else (s.start - p.low, 0, false)
  let high : Int × Int × Bool :=
    if inshape < s.limit - p.low then (inshape, s.limit - p.low - inshape, true) else (s.limit - p.low, 0, false)
  (⟨low.1, high.1, 1⟩, ⟨low.2.1, high.2.1, 0⟩, low.2.2 || high.2.2)

/-- The dimensions after one where there is only padding are not looked at. -/
def slicePadHelper : List SliceDim → List PadDim → List Nat → Option PadSlice
  | s :: slices, p :: pads, inshape :: shape =>
    if s.stride ≠ 1 then none
    else if p.interior ≠ 0 then none
    else if p.size inshape - p.high ≤ s.start then some .broadcastres
    else if s.limit ≤ p.low then some .broadcastres
    else (slicePadHelper slices pads shape).map fun
      | .broadcastres => .broadcastres
      | .slice dims pads needspad =>
        let (dim, pad, needs) := slicePadDim s p inshape
        .slice (dim :: dims) (pad :: pads) (needs || needspad)
  | _, _, _ => some (.slice [] [] false)

section

variable {α : Type}

def sliceConcatHelper (dim : Nat) (ds : List SliceDim) : Nat → List (Tensor α) → List (List SliceDim × Tensor α)
  | _, [] => []
  | curdim, v :: inputs =>
    let s := sliceDim ds dim
    let nextdim := coord v.shape dim
    if (curdim + nextdim : Int) ≤ s.start then sliceConcatHelper dim ds (curdim + nextdim) inputs
    else if s.limit ≤ curdim then sliceConcatHelper dim ds (curdim + nextdim) inputs
    else
      let nstart : Int := if s.start - curdim < 0 then 0 else s.start - curdim
      let nend : Int := if nextdim < s.limit - curdim then nextdim else s.limit - curdim
      (ds.set dim ⟨nstart, nend, s.stride⟩, v) :: sliceConcatHelper dim ds (curdim + nextdim) inputs

/-- The op that makes the operand of the slice. -/
inductive Producer (α : Type)
  | slice (dims : List SliceDim) (x : Tensor α)
  | pad (dims : List PadDim) (v : α) (x : Tensor α)
  | concatenate (dim : Nat) (xs : List (Tensor α))

def Producer.eval : Producer α → Option (Tensor α)
  | slice dims x => Tensor.slice dims x
  | pad dims v x => Tensor.pad dims v x
  | concatenate dim xs => Tensor.concatenate dim xs

def SliceSlice (ds prev : List SliceDim) (x : Tensor α) : Option (Tensor α) :=
  (sliceSliceHelper prev ds x.shape).bind fun dims => slice dims x

def SlicePad (ds : List SliceDim) (pads : List PadDim) (v : α) (x : Tensor α) : Option (Option (Tensor α)) :=
  if PaddedReduce.anyPadSizesNegative pads then none
  else (slicePadHelper ds pads x.shape).map fun
    | .broadcastres => some (splat (ds.map SliceDim.size) v)
    | .slice dims pads needspad =>
      if needspad then (slice dims x).bind (pad pads v) else slice dims x

def SliceConcat (ds : List SliceDim) (dim : Nat) (xs : List (Tensor α)) : Option (Option (Tensor α)) :=
  if (sliceDim ds dim).stride ≠ 1 then none
  else some ((allSome ((sliceConcatHelper dim ds 0 xs).map fun p => slice p.1 p.2)).bind (concatenate dim))

def Producer.rewrite (ds : List SliceDim) : Producer α → Option (Option (Tensor α))
  | slice prev x => some (SliceSlice ds prev x)
  | pad pads v x => SlicePad ds pads v x
  | concatenate dim xs => SliceConcat ds dim xs

/-- The composed slice is within `int64_t`; the slice of a concatenation has elements along its dimension, or is
taken inside of a piece. -/
def Producer.Fits (ds : List SliceDim) : Producer α → Prop
  | slice prev _ => ∀ d < prev.length,
    (sliceDim prev d).start + (sliceDim prev d).stride * (sliceDim ds d).limit < 2 ^ 63 ∧
      (sliceDim prev d).stride * (sliceDim ds d).stride < 2 ^ 63
  | pad _ _ _ => True
  | concatenate dim xs => (sliceDim ds dim).start < (sliceDim ds dim).limit ∨
    ∃ pre v post, xs = pre ++ v :: post ∧ total dim pre < (sliceDim ds dim).start ∧
      (sliceDim ds dim).start < total dim pre + coord v.shape dim

end

/-! ### Slices of slices -/

section

variable {prev next : SliceDim} {size : Nat} {d : SliceDim}

theorem sliceSliceDim_eq_some_iff (hprev : prev.Ok size) (hnext : next.Ok prev.size) :
    sliceSliceDim prev next size = some d ↔
      (prev.start + prev.stride * next.limit < 2 ^ 63 ∧ prev.stride * next.stride < 2 ^ 63) ∧
        d = ⟨min (prev.start + prev.stride * next.start) size, min (prev.start + prev.stride * next.limit) size,
          prev.stride * next.stride⟩ := by
  obtain ⟨hstart, -, -, hstride⟩ := hprev
  obtain ⟨hstart', hle, -, hstride'⟩ := hnext
  have hmin : ∀ a : Int, (if (size : Int) < a then (size : Int) else a) = min a size := by
    intro a
    rw [min_comm, min_def]
    split
    · rw [if_pos (by omega)]
    · split
      · omega
      · rfl
  have hoffset : 0 ≤ prev.stride * next.start := mul_nonneg hstride.le hstart'
  have hsteps : 0 ≤ prev.stride * next.stride := mul_nonneg hstride.le hstride'.le
  have hlen : next.limit - next.start ≤ prev.stride * (next.limit - next.start) :=
    le_mul_of_one_le_left (sub_nonneg.mpr hle) hstride
  have hextent : prev.stride * (next.limit - next.start) =
      prev.stride * next.limit - prev.stride * next.start := mul_sub _ _ _
  have hend : prev.start + prev.stride * next.start + prev.stride * (next.limit - next.start) =
      prev.start + prev.stride * next.limit := by
    rw [hextent]
    ring
  simp only [sliceSliceDim, hmin, bind_eq_bind, bind_eq_some_iff, int64_eq_some_iff, Option.pure_def, some.injEq]
  constructor
  · rintro ⟨_, ⟨rfl, -, -⟩, _, ⟨rfl, -, -⟩, _, ⟨rfl, -, hsteps⟩, _, ⟨rfl, -, -⟩, _, ⟨rfl, -, -⟩, _,
      ⟨rfl, -, hlimit⟩, rfl⟩
    rw [hend] at hlimit ⊢
    exact ⟨⟨hlimit, hsteps⟩, rfl⟩
  · rintro ⟨⟨hlimit, hsteps'⟩, rfl⟩
    rw [← hend]
    exact ⟨_, ⟨rfl, by omega, by omega⟩, _, ⟨rfl, by omega, by omega⟩, _, ⟨rfl, by omega, hsteps'⟩, _,
      ⟨rfl, by omega, by omega⟩, _, ⟨rfl, by omega, by omega⟩, _, ⟨rfl, by omega, by omega⟩, rfl⟩

theorem composed (hprev : prev.Ok size) (hnext : next.Ok prev.size)
    (hd : d = ⟨min (prev.start + prev.stride * next.start) size,
      min (prev.start + prev.stride * next.limit) size, prev.stride * next.stride⟩) :
    d.Ok size ∧ d.size = next.size ∧ ∀ k < next.size, d.source k = prev.source (next.source k) := by
  have hstart := hprev.1
  have hstride := hprev.2.2.2
  have hle' := hnext.2.1
  have hstride' := hnext.2.2.2
  have hoffset : 0 ≤ prev.stride * next.start := mul_nonneg hstride.le hnext.1
  have hlimits : prev.stride * next.start ≤ prev.stride * next.limit := mul_le_mul_of_nonneg_left hle' hstride.le
  have hok : d.Ok size := by
    rw [hd]
    refine ⟨?_, ?_, ?_, mul_pos hstride hstride'⟩
    · change 0 ≤ min _ _
      omega
    · change min _ _ ≤ min _ _
      omega
    · exact min_le_right _ _
  have hsrc : ∀ k < next.size, prev.start + prev.stride * next.start + k * (prev.stride * next.stride) =
      prev.source (next.source k) := by
    intro k _
    rw [SliceDim.source_of_ok hprev, SliceDim.source_of_ok hnext]
    ring
  have hinside : ∀ k < next.size, prev.source (next.source k) < size := fun k hk =>
    SliceDim.source_lt hprev (SliceDim.source_lt hnext hk)
  refine ⟨hok, ?_, fun k hk => ?_⟩
  · refine SliceDim.size_eq_of_lt_iff hok.2.2.2 fun k => ?_
    have hsteps : (0 : Int) ≤ k * (prev.stride * next.stride) := mul_nonneg (by omega) (mul_pos hstride hstride').le
    have hscale : prev.stride * next.start + k * (prev.stride * next.stride) < prev.stride * next.limit ↔
        next.start + k * next.stride < next.limit := by
      have hfactor : prev.stride * next.start + k * (prev.stride * next.stride) =
          prev.stride * (next.start + k * next.stride) := by ring
      rw [hfactor, mul_lt_mul_iff_right₀ hstride]
    rw [hd]
    change min _ _ + k * (prev.stride * next.stride) < min _ _ ↔ _
    rw [SliceDim.lt_size_iff hstride', ← hscale]
    constructor
    · intro h
      omega
    · intro h
      have hk : k < next.size := (SliceDim.lt_size_iff hstride').mpr (hscale.mp h)
      have hat := hsrc k hk
      have hlt := hinside k hk
      omega
  · have hsteps : (0 : Int) ≤ k * (prev.stride * next.stride) := mul_nonneg (by omega) (mul_pos hstride hstride').le
    have hat := hsrc k hk
    have hlt := hinside k hk
    have heq := SliceDim.source_of_ok hok k
    rw [hd] at heq ⊢
    change _ = min _ _ + k * (prev.stride * next.stride) at heq
    omega

end

section

variable {prev next dims : List SliceDim} {shape : List Nat}

section

variable (hnext : next.length = prev.length) (hshape : shape.length = prev.length)

include hnext hshape

theorem getElem_sliceSliceHelper (i : Nat) (hi : i < prev.length) :
    (zipWith (fun prev (p : SliceDim × Nat) => sliceSliceDim prev p.1 p.2) prev (zip next shape))[i]? =
      some (sliceSliceDim (sliceDim prev i) (sliceDim next i) (coord shape i)) := by
  rw [sliceDim_eq_getElem hi, sliceDim_eq_getElem (hnext.symm ▸ hi), coord_eq_getElem (hshape.symm ▸ hi),
    getElem?_eq_getElem (by simp [hi, hnext, hshape]), getElem_zipWith, getElem_zip]

theorem sliceSliceHelper_eq_some_iff :
    sliceSliceHelper prev next shape = some dims ↔ dims.length = prev.length ∧ ∀ i < prev.length,
      sliceSliceDim (sliceDim prev i) (sliceDim next i) (coord shape i) = some (sliceDim dims i) := by
  have hat := getElem_sliceSliceHelper hnext hshape
  have hlen : (zipWith (fun prev (p : SliceDim × Nat) => sliceSliceDim prev p.1 p.2) prev
      (zip next shape)).length = prev.length := by simp [hnext, hshape]
  rw [sliceSliceHelper, allSome_eq_some_iff]
  constructor
  · intro h
    have hdims : dims.length = prev.length := by rw [← hlen, h, length_map]
    refine ⟨hdims, fun i hi => ?_⟩
    have hget := hat i hi
    rw [h, getElem?_map, getElem?_eq_getElem (hdims.symm ▸ hi), map_some, ← sliceDim_eq_getElem] at hget
    exact (some.inj hget).symm
  · rintro ⟨hdims, h⟩
    refine ext_getElem? fun i => ?_
    by_cases hi : i < prev.length
    · rw [hat i hi, h i hi, getElem?_map, getElem?_eq_getElem (hdims.symm ▸ hi), map_some, ← sliceDim_eq_getElem]
    · rw [getElem?_eq_none (by omega), getElem?_eq_none (by rw [length_map]; omega)]

theorem exists_sliceSliceHelper
    (h : ∀ i < prev.length, ∃ d, sliceSliceDim (sliceDim prev i) (sliceDim next i) (coord shape i) = some d) :
    ∃ dims, sliceSliceHelper prev next shape = some dims := by
  refine exists_allSome_iff.mpr fun a ha => ?_
  obtain ⟨i, hi, rfl⟩ := getElem_of_mem ha
  have hi' : i < prev.length := by simpa [hnext, hshape] using hi
  have hat := getElem_sliceSliceHelper hnext hshape i hi'
  rw [getElem?_eq_getElem hi] at hat
  rw [some.inj hat]
  exact h i hi'

end

variable {α : Type} {x y z : Tensor α}

theorem sliceSlice_iff (hy : slice prev x = some y) (hz : slice next y = some z) :
    (∃ w, SliceSlice next prev x = some w ∧ Same w z) ↔ (Producer.slice prev x).Fits next := by
  obtain ⟨hlen, -, hprev, hread⟩ := read_slice hy
  obtain ⟨hlen', -, hnext, hread'⟩ := read_slice hz
  rw [length_slice hy] at hlen'
  have hok : ∀ i < prev.length, (sliceDim next i).Ok (sliceDim prev i).size := by
    intro i hi
    rw [← coord_slice hy hi]
    exact hnext i (hlen'.symm ▸ hi)
  constructor
  · rintro ⟨w, hw, -⟩
    obtain ⟨dims, hdims, -⟩ := bind_eq_some_iff.mp hw
    have hat := ((sliceSliceHelper_eq_some_iff hlen' hlen.symm).mp hdims).2
    intro i hi
    exact ((sliceSliceDim_eq_some_iff (hprev i hi) (hok i hi)).mp (hat i hi)).1
  · intro hfits
    obtain ⟨dims, hdims⟩ := exists_sliceSliceHelper hlen' hlen.symm fun i hi =>
      ⟨_, (sliceSliceDim_eq_some_iff (hprev i hi) (hok i hi)).mpr ⟨hfits i hi, rfl⟩⟩
    obtain ⟨hdlength, hat⟩ := (sliceSliceHelper_eq_some_iff hlen' hlen.symm).mp hdims
    have hcomposed := fun i hi =>
      composed (hprev i hi) (hok i hi) ((sliceSliceDim_eq_some_iff (hprev i hi) (hok i hi)).mp (hat i hi)).2
    obtain ⟨w, hw⟩ := exists_slice (x := x) (hdlength.trans hlen) fun i hi =>
      (hcomposed i (hdlength ▸ hi)).1
    obtain ⟨-, -, -, hwread⟩ := read_slice hw
    have hrank : w.shape.length = prev.length := (length_slice hw).trans hdlength
    have hshape : w.shape = z.shape := by
      refine eq_of_coord (by rw [hrank, length_slice hz, hlen']) fun i hi => ?_
      have hi' : i < prev.length := hrank ▸ hi
      rw [coord_slice hw (hdlength.symm ▸ hi'), coord_slice hz (hlen'.symm ▸ hi'), (hcomposed i hi').2.1]
    refine ⟨w, bind_eq_some_iff.mpr ⟨dims, hdims, hw⟩, same_of_read hshape fun c hc => ?_⟩
    have hc' : Within z.shape c := hshape ▸ hc
    rw [hwread c hc, hread' c hc', hread _ (within_source hz hc')]
    refine read_congr x fun i hi => (hcomposed i (hlen.symm ▸ hi)).2.2 (c i) ?_
    rw [← coord_slice hz (by rw [hlen', hlen]; exact hi)]
    exact hc' i (by rw [length_slice hz, hlen', hlen]; exact hi)

end

/-! ### Slices of pads -/

section

variable {s : SliceDim} {p : PadDim} {n : Nat}

theorem slicePadDim_eq : slicePadDim s p n = (⟨max (s.start - p.low) 0, min (s.limit - p.low) n, 1⟩,
      ⟨max (p.low - s.start) 0, max (s.limit - p.low - n) 0, 0⟩,
      decide (s.start < p.low ∨ n < s.limit - p.low)) := by
  rw [slicePadDim]
  by_cases hlow : s.start - p.low < 0
  · rw [if_pos hlow, max_eq_right hlow.le, max_eq_left (by omega)]
    by_cases hhigh : n < s.limit - p.low
    · rw [if_pos hhigh, min_eq_right hhigh.le, max_eq_left (by omega), decide_eq_true (by omega)]
      rfl
    · rw [if_neg hhigh, min_eq_left (by omega), max_eq_right (by omega), decide_eq_true (by omega)]
      rfl
  · rw [if_neg hlow, max_eq_left (by omega), max_eq_right (by omega)]
    by_cases hhigh : n < s.limit - p.low
    · rw [if_pos hhigh, min_eq_right hhigh.le, max_eq_left (by omega), decide_eq_true (by omega)]
      rfl
    · rw [if_neg hhigh, min_eq_left (by omega), max_eq_right (by omega), decide_eq_false (by omega)]
      rfl

/-- A dimension of a slice that has elements of the operand of the pad, or is between them. -/
structure Reaches (s : SliceDim) (p : PadDim) (n : Nat) : Prop where
  stride_eq : s.stride = 1
  interior_eq : p.interior = 0
  start_lt : s.start < p.size n - p.high
  lt_limit : p.low < s.limit

def OnlyPadding (s : SliceDim) (p : PadDim) (n : Nat) : Prop :=
  s.stride = 1 ∧ p.interior = 0 ∧ (p.size n - p.high ≤ s.start ∨ s.limit ≤ p.low)

theorem slicePadDim_spec {d : SliceDim} {q : PadDim} {needs : Bool} (h : slicePadDim s p n = (d, q, needs))
    (hs : s.Ok (p.size n).toNat) (hp : p.NonNeg) (hreaches : Reaches s p n) :
    d.Ok n ∧ q.Ok d.size ∧ (q.size d.size).toNat = s.size ∧
      (∀ k < s.size, (q.source d.size k).map d.source = p.source n (s.source k)) ∧
      (needs = false → q = ⟨0, 0, 0⟩) := by
  obtain ⟨hstart', hle, hlimit', -⟩ := hs
  obtain ⟨hstride, hinterior, hstart, hlimit⟩ := hreaches
  obtain ⟨hlow, hhigh, -⟩ := hp
  rw [PadDim.size_of_interior hinterior] at hstart hlimit'
  rw [slicePadDim_eq] at h
  obtain ⟨rfl, hrest⟩ := Prod.mk.inj h
  cases hrest
  have hsize : s.size = (s.limit - s.start).toNat := by
    rw [SliceDim.size, hstride]
    omega
  have hpart : (SliceDim.mk (max (s.start - p.low) 0) (min (s.limit - p.low) n) 1).size =
      (min (s.limit - p.low) n - max (s.start - p.low) 0).toNat := by
    change Int.toNat ((min _ _ - max _ _ + 1 - 1) / 1) = _
    rw [Int.ediv_one, add_sub_cancel_right]
  rw [hpart, hsize]
  refine ⟨⟨le_max_right _ _, ?_, min_le_right _ _, Int.one_pos⟩, ⟨le_rfl, ?_⟩, ?_, fun k hk => ?_, fun hneeds => ?_⟩
  · change max _ _ ≤ min _ _
    omega
  · rw [PadDim.size_of_interior rfl]
    change 0 ≤ max _ _ + _ + max _ _
    omega
  · rw [PadDim.size_of_interior rfl]
    change Int.toNat (max _ _ + _ + max _ _) = _
    omega
  · rw [PadDim.source_of_interior rfl, PadDim.source_of_interior hinterior]
    have hsrc : (s.source k : Int) = s.start + k := by
      rw [SliceDim.source, hstride]
      omega
    change (if 0 ≤ (k : Int) - max _ _ ∧ (k : Int) - max _ _ < _ then some (Int.toNat (k - max _ _)) else none).map _ = _
    rw [hsrc]
    by_cases hin : 0 ≤ s.start + k - p.low ∧ s.start + k - p.low < n
    · rw [if_pos hin, if_pos (by omega), map_some, SliceDim.source]
      change some (Int.toNat (max _ _ + _ * 1)) = _
      congr 1
      omega
    · rw [if_neg hin, if_neg (by omega), map_none]
  · obtain ⟨hfirst, hlast⟩ := not_or.mp (of_decide_eq_false hneeds)
    rw [max_eq_right (by omega), max_eq_right (by omega)]

end

section

variable {slices dims : List SliceDim} {pads qs : List PadDim} {shape : List Nat} {needs : Bool}

theorem slicePadHelper_cons {s : SliceDim} {p : PadDim} {n : Nat} {r : PadSlice}
    (h : slicePadHelper (s :: slices) (p :: pads) (n :: shape) = some r) :
    (r = .broadcastres ∧ OnlyPadding s p n) ∨ (r = .broadcastres ∧ slicePadHelper slices pads shape = some r) ∨
      ∃ dim pad needs dims qs needs', slicePadDim s p n = (dim, pad, needs) ∧ Reaches s p n ∧
        slicePadHelper slices pads shape = some (.slice dims qs needs') ∧
          r = .slice (dim :: dims) (pad :: qs) (needs || needs') := by
  rw [slicePadHelper] at h
  by_cases hstride : s.stride = 1
  · rw [if_neg (not_not.mpr hstride)] at h
    by_cases hinterior : p.interior = 0
    · rw [if_neg (not_not.mpr hinterior)] at h
      by_cases hafter : p.size n - p.high ≤ s.start
      · rw [if_pos hafter] at h
        exact .inl ⟨(some.inj h).symm, hstride, hinterior, .inl hafter⟩
      · rw [if_neg hafter] at h
        by_cases hbefore : s.limit ≤ p.low
        · rw [if_pos hbefore] at h
          exact .inl ⟨(some.inj h).symm, hstride, hinterior, .inr hbefore⟩
        · rw [if_neg hbefore] at h
          obtain ⟨rest, hrest, rfl⟩ := map_eq_some_iff.mp h
          cases rest with
          | broadcastres => exact .inr (.inl ⟨rfl, hrest⟩)
          | slice dims qs needs' =>
            exact .inr (.inr ⟨_, _, _, dims, qs, needs', rfl,
              ⟨hstride, hinterior, not_le.mp hafter, not_le.mp hbefore⟩, hrest, rfl⟩)
    · rw [if_pos hinterior] at h
      cases h
  · rw [if_pos hstride] at h
    cases h

theorem slicePadHelper_broadcastres (hpads : pads.length = slices.length) (hshape : shape.length = slices.length)
    (h : slicePadHelper slices pads shape = some .broadcastres) :
    ∃ d < slices.length, OnlyPadding (sliceDim slices d) (padDim pads d) (coord shape d) := by
  induction slices generalizing pads shape with
  | nil => cases h
  | cons s slices ih =>
    obtain ⟨p, pads, rfl⟩ := exists_cons_of_length_eq_add_one hpads
    obtain ⟨n, shape, rfl⟩ := exists_cons_of_length_eq_add_one hshape
    obtain ⟨-, honly⟩ | ⟨-, hrest⟩ | ⟨dim, pad, needs, dims, qs, needs', -, -, -, hr⟩ := slicePadHelper_cons h
    · exact ⟨0, Nat.succ_pos _, honly⟩
    · obtain ⟨d, hd, honly⟩ := ih (add_right_cancel hpads) (add_right_cancel hshape) hrest
      exact ⟨d + 1, Nat.succ_lt_succ hd, honly⟩
    · cases hr

theorem slicePadHelper_slice (hpads : pads.length = slices.length) (hshape : shape.length = slices.length)
    (h : slicePadHelper slices pads shape = some (.slice dims qs needs)) :
    dims.length = slices.length ∧ qs.length = slices.length ∧ ∀ d < slices.length,
      Reaches (sliceDim slices d) (padDim pads d) (coord shape d) ∧
        ∃ needs', slicePadDim (sliceDim slices d) (padDim pads d) (coord shape d) =
          (sliceDim dims d, padDim qs d, needs') ∧ (needs = false → needs' = false) := by
  induction slices generalizing pads shape dims qs needs with
  | nil =>
    cases h
    exact ⟨rfl, rfl, fun d hd => absurd hd (Nat.not_lt_zero d)⟩
  | cons s slices ih =>
    obtain ⟨p, pads, rfl⟩ := exists_cons_of_length_eq_add_one hpads
    obtain ⟨n, shape, rfl⟩ := exists_cons_of_length_eq_add_one hshape
    obtain ⟨hr, -⟩ | ⟨hr, -⟩ | ⟨dim, pad, needs₁, dims', qs', needs₂, hdim, hreaches, hrest, hr⟩ :=
      slicePadHelper_cons h
    · cases hr
    · cases hr
    · cases hr
      obtain ⟨hdims, hqs, hat⟩ := ih (add_right_cancel hpads) (add_right_cancel hshape) hrest
      refine ⟨congrArg (· + 1) hdims, congrArg (· + 1) hqs, fun d hd => ?_⟩
      cases d with
      | zero => exact ⟨hreaches, needs₁, hdim, fun hneeds => (Bool.or_eq_false_iff.mp hneeds).1⟩
      | succ d =>
        obtain ⟨hreaches', needs', hdim', hneeds'⟩ := hat d (Nat.lt_of_succ_lt_succ hd)
        exact ⟨hreaches', needs', hdim', fun hneeds => hneeds' (Bool.or_eq_false_iff.mp hneeds).2⟩

variable {α : Type} {v : α} {x y z : Tensor α}

theorem read_of_onlyPadding (hy : pad pads v x = some y) (hz : slice slices y = some z) {d : Nat}
    (hd : d < slices.length) (honly : OnlyPadding (sliceDim slices d) (padDim pads d) (coord x.shape d))
    {c : Nat → Nat} (hc : Within z.shape c) : z.read c = v := by
  obtain ⟨hlen, hrank, hpads⟩ := shape_pad hy
  obtain ⟨hlen', -, hok, hread⟩ := read_slice hz
  have hd' : d < pads.length := by omega
  obtain ⟨hstride, hinterior, hoff⟩ := honly
  have hlt : c d < (sliceDim slices d).size := by
    rw [← coord_slice hz hd]
    exact hc d (by rwa [length_slice hz])
  have hend := (SliceDim.lt_size_iff (hok d hd).2.2.2).mp hlt
  have hsrc := SliceDim.source_of_ok (hok d hd) (c d)
  have hsize := (hpads d hd').2
  rw [hread c hc]
  refine (read_pad hy _).2 ⟨d, hd', ?_⟩
  rw [PadDim.source_of_interior hinterior, if_neg]
  rw [PadDim.size_of_interior hinterior] at hoff
  rw [hstride, mul_one] at hend hsrc
  omega

theorem slicePad_same (hy : pad pads v x = some y) (hz : slice slices y = some z) {r : Option (Tensor α)}
    (hr : SlicePad slices pads v x = some r) : ∃ w, r = some w ∧ Same w z := by
  obtain ⟨hlen, hrank, hpads⟩ := shape_pad hy
  obtain ⟨hlen', hzshape, hok, hread⟩ := read_slice hz
  have hranks : pads.length = slices.length := by omega
  have hxrank : x.shape.length = slices.length := by omega
  rw [SlicePad] at hr
  split at hr
  · cases hr
  · rename_i hneg
    have hnonneg : ∀ p ∈ pads, p.NonNeg :=
      @PaddedReduce.nonNeg_of_not_negative ⟨.add, [], 0, pads, 0, true⟩ (Bool.eq_false_iff.mpr hneg)
    obtain ⟨padSlice, hhelper, rfl⟩ := map_eq_some_iff.mp hr
    cases padSlice with
    | broadcastres =>
      obtain ⟨d, hd, honly⟩ := slicePadHelper_broadcastres hranks hxrank hhelper
      refine ⟨_, rfl, same_of_read hzshape.symm fun c hc => ?_⟩
      rw [read_of_onlyPadding hy hz hd honly (hzshape ▸ hc)]
      rfl
    | slice dims qs needs =>
      obtain ⟨hdims, hqs, hat⟩ := slicePadHelper_slice hranks hxrank hhelper
      have hspec : ∀ d < slices.length, ∃ needs', (needs = false → needs' = false) ∧
          (sliceDim dims d).Ok (coord x.shape d) ∧ (padDim qs d).Ok (sliceDim dims d).size ∧
          ((padDim qs d).size (sliceDim dims d).size).toNat = (sliceDim slices d).size ∧
          (∀ k < (sliceDim slices d).size, ((padDim qs d).source (sliceDim dims d).size k).map
            (sliceDim dims d).source = (padDim pads d).source (coord x.shape d) ((sliceDim slices d).source k)) ∧
          (needs' = false → padDim qs d = ⟨0, 0, 0⟩) := by
        intro d hd
        obtain ⟨hreaches, needs', hdim, hneeds⟩ := hat d hd
        have hok' := hok d hd
        rw [(hpads d (hranks.symm ▸ hd)).2] at hok'
        refine ⟨needs', hneeds, slicePadDim_spec hdim hok' ?_ hreaches⟩
        rw [padDim_eq_getElem (hranks.symm ▸ hd)]
        exact hnonneg _ (getElem_mem _)
      obtain ⟨t, ht⟩ := exists_slice (x := x) (hdims.trans hxrank.symm) fun d hd => by
        obtain ⟨-, -, hdok, -⟩ := hspec d (hdims ▸ hd)
        exact hdok
      obtain ⟨-, -, -, htread⟩ := read_slice ht
      have hcoord : ∀ d < slices.length, coord t.shape d = (sliceDim dims d).size := fun d hd =>
        coord_slice ht (hdims.symm ▸ hd)
      have htrank : t.shape.length = slices.length := (length_slice ht).trans hdims
      obtain ⟨w, hw⟩ := exists_pad v (x := t) (hqs.trans htrank.symm) fun d hd => by
        obtain ⟨-, -, -, hqok, -⟩ := hspec d (hqs ▸ hd)
        rw [hcoord d (hqs ▸ hd)]
        exact hqok
      obtain ⟨-, hwrank, hwshape⟩ := shape_pad hw
      have hshape : w.shape = z.shape := by
        refine eq_of_coord (by rw [hwrank, hqs, length_slice hz]) fun d hd => ?_
        have hd' : d < slices.length := by rw [← hqs, ← hwrank]; exact hd
        obtain ⟨-, -, -, -, hsize, -⟩ := hspec d hd'
        rw [(hwshape d (hqs.symm ▸ hd')).2, hcoord d hd', hsize, coord_slice hz hd']
      have hsame : Same w z := by
        refine same_of_read hshape fun c hc => ?_
        have hcz : Within z.shape c := hshape ▸ hc
        have hlt : ∀ d < slices.length, c d < (sliceDim slices d).size := by
          intro d hd
          rw [← coord_slice hz hd]
          exact hcz d (by rwa [length_slice hz])
        rw [hread c hcz]
        by_cases hall : ∀ d < slices.length, ∃ i, (padDim qs d).source (coord t.shape d) (c d) = some i
        · choose! i hi using hall
          rw [(read_pad hw c).1 i fun d hd => hi d (hqs ▸ hd), htread]
          · refine ((read_pad hy _).1 _ fun d hd => ?_).symm
            have hd' : d < slices.length := hranks ▸ hd
            obtain ⟨-, -, -, -, -, hsrc, -⟩ := hspec d hd'
            rw [← hsrc _ (hlt d hd'), ← hcoord d hd', hi d hd', map_some]
          · intro d hd
            have hat := hi d (htrank ▸ hd)
            obtain ⟨-, -, -, hqok, -⟩ := hspec d (htrank ▸ hd)
            exact ((PadDim.source_eq_some hqok.1).mp hat).1
        · obtain ⟨d, hd⟩ := not_forall.mp hall
          obtain ⟨hd, hnone⟩ := Classical.not_imp.mp hd
          have hnone := eq_none_iff_forall_ne_some.mpr (not_exists.mp hnone)
          obtain ⟨-, -, -, -, -, hsrc, -⟩ := hspec d hd
          rw [(read_pad hw c).2 ⟨d, hqs.symm ▸ hd, hnone⟩]
          refine ((read_pad hy _).2 ⟨d, hranks.symm ▸ hd, ?_⟩).symm
          rw [← hsrc _ (hlt d hd), ← hcoord d hd, hnone, map_none]
      cases needs with
      | true => exact ⟨w, bind_eq_some_iff.mpr ⟨t, ht, hw⟩, hsame⟩
      | false =>
        refine ⟨t, ht, (same_of_pad_zero hw fun d hd => ?_).symm.trans hsame⟩
        obtain ⟨needs', hneeds, -, -, -, -, hzero⟩ := hspec d (hqs ▸ hd)
        exact hzero (hneeds rfl)

end

/-! ### Slices of concatenations -/

section

variable {α : Type} {dim k : Nat} {ds : List SliceDim} {shape : List Nat} {x y z : Tensor α} {xs : List (Tensor α)}

/-- Some piece is met by the slice. -/
theorem sliceConcatHelper_ne_nil_iff {curdim : Nat} : sliceConcatHelper dim ds curdim xs ≠ [] ↔
    ∃ pre v post, xs = pre ++ v :: post ∧ (sliceDim ds dim).start < curdim + total dim pre + coord v.shape dim ∧
        curdim + total dim pre < (sliceDim ds dim).limit := by
  induction xs generalizing curdim with
  | nil => simp [sliceConcatHelper]
  | cons v xs ih =>
    have hskip : ¬((sliceDim ds dim).start < curdim + coord v.shape dim ∧ curdim < (sliceDim ds dim).limit) →
        ((∃ pre v' post, v :: xs = pre ++ v' :: post ∧
          (sliceDim ds dim).start < curdim + total dim pre + coord v'.shape dim ∧
            curdim + total dim pre < (sliceDim ds dim).limit) ↔
          sliceConcatHelper dim ds (curdim + coord v.shape dim) xs ≠ []) := by
      intro hout
      rw [ih]
      constructor
      · rintro ⟨pre, v', post, heq, hstart, hlimit⟩
        cases pre with
        | nil =>
          obtain ⟨rfl, rfl⟩ := cons.inj heq
          rw [total_nil] at hstart hlimit
          exact absurd ⟨by omega, by omega⟩ hout
        | cons x pre =>
          obtain ⟨rfl, rfl⟩ := cons.inj heq
          rw [total_cons] at hstart hlimit
          exact ⟨pre, v', post, rfl, by push_cast at hstart ⊢; omega, by push_cast at hlimit ⊢; omega⟩
      · rintro ⟨pre, v', post, rfl, hstart, hlimit⟩
        refine ⟨v :: pre, v', post, rfl, ?_, ?_⟩
        · rw [total_cons]
          push_cast at hstart ⊢
          omega
        · rw [total_cons]
          push_cast at hlimit ⊢
          omega
    rw [sliceConcatHelper]
    by_cases hbefore : (curdim + coord v.shape dim : Int) ≤ (sliceDim ds dim).start
    · rw [if_pos hbefore, hskip fun h => absurd hbefore (not_le.mpr h.1)]
    · rw [if_neg hbefore]
      by_cases hafter : (sliceDim ds dim).limit ≤ curdim
      · rw [if_pos hafter, hskip fun h => absurd hafter (not_le.mpr h.2)]
      · rw [if_neg hafter]
        refine iff_of_true (cons_ne_nil _ _) ⟨[], v, xs, rfl, ?_, ?_⟩
        · rw [total_nil]
          omega
        · rw [total_nil]
          omega

theorem exists_piece (h : k < total dim xs) : ∃ pre v post, xs = pre ++ v :: post ∧ total dim pre ≤ k ∧
    k < total dim pre + coord v.shape dim := by
  induction xs generalizing k with
  | nil => exact absurd h (Nat.not_lt_zero k)
  | cons v xs ih =>
    rw [total_cons] at h
    by_cases hk : k < coord v.shape dim
    · exact ⟨[], v, xs, rfl, Nat.zero_le k, by rwa [total_nil, Nat.zero_add]⟩
    · obtain ⟨pre, v', post, rfl, hle, hlt⟩ := ih (k := k - coord v.shape dim) (by omega)
      exact ⟨v :: pre, v', post, rfl, by rw [total_cons]; omega, by rw [total_cons]; omega⟩

theorem meets_iff (h : concatenate dim xs = some y) (hz : slice ds y = some z) :
    sliceConcatHelper dim ds 0 xs ≠ [] ↔ (Producer.concatenate dim xs).Fits ds := by
  obtain ⟨hd, -, -, -⟩ := pieces_of_concatenate h
  obtain ⟨hlen, -, hok, -⟩ := read_slice hz
  obtain ⟨hstart, hle, hlimit, -⟩ := hok dim (hlen.symm ▸ hd)
  rw [coord_concatenate h] at hlimit
  rw [sliceConcatHelper_ne_nil_iff]
  constructor
  · rintro ⟨pre, v, post, rfl, hlow, hhigh⟩
    by_cases hempty : (sliceDim ds dim).start < (sliceDim ds dim).limit
    · exact .inl hempty
    · exact .inr ⟨pre, v, post, rfl, by omega, by omega⟩
  · rintro (hlt | ⟨pre, v, post, rfl, hlow, hhigh⟩)
    · have hpiece : (sliceDim ds dim).start.toNat < total dim xs := by omega
      obtain ⟨pre, v, post, rfl, hlow, hhigh⟩ := exists_piece hpiece
      exact ⟨pre, v, post, rfl, by omega, by omega⟩
    · exact ⟨pre, v, post, rfl, by omega, by omega⟩

/-- The slices of the pieces, one after another, are the slice from where it starts. -/
theorem sliceConcatHelper_spec (hd : dim < shape.length) (hlen : ds.length = shape.length)
    (hok : ∀ d < ds.length, d ≠ dim → (sliceDim ds d).Ok (coord shape d)) {s l : Nat}
    (hdim : sliceDim ds dim = ⟨s, l, 1⟩) (hle : s ≤ l) (hxs : FitTogether dim shape xs) (curdim : Nat) :
    ∃ ts, allSome ((sliceConcatHelper dim ds curdim xs).map fun p => slice p.1 p.2) = some ts ∧
      FitTogether dim (ds.map SliceDim.size) ts ∧ total dim ts = min (l - curdim) (total dim xs) - (s - curdim) ∧
        ∀ c, (∀ d < ds.length, d ≠ dim → c d < (sliceDim ds d).size) → c dim < total dim ts →
          pieceAt dim ts c = pieceAt dim xs
            (taken dim (fun d => (sliceDim ds d).source) (s - curdim + c dim) c) := by
  induction xs generalizing curdim with
  | nil =>
    refine ⟨[], rfl, forall_mem_nil _, ?_, fun c _ hlt => absurd hlt (Nat.not_lt_zero _)⟩
    rw [total_nil, Nat.min_zero, Nat.zero_sub]
  | cons v xs ih =>
    obtain ⟨ts, hts, hfits, htotal, hpieces⟩ :=
      ih (fun t ht => hxs t (mem_cons_of_mem _ ht)) (curdim + coord v.shape dim)
    have hskip : curdim + coord v.shape dim ≤ s ∨ l ≤ curdim →
        total dim ts = min (l - curdim) (total dim (v :: xs)) - (s - curdim) ∧
        ∀ c, (∀ d < ds.length, d ≠ dim → c d < (sliceDim ds d).size) → c dim < total dim ts →
          pieceAt dim ts c = pieceAt dim (v :: xs)
            (taken dim (fun d => (sliceDim ds d).source) (s - curdim + c dim) c) := by
      intro hout
      refine ⟨by rw [htotal, total_cons]; omega, fun c hc hlt => ?_⟩
      rw [pieceAt, taken_self, if_neg (by omega), update_taken, hpieces c hc hlt]
      congr 2
      omega
    rw [sliceConcatHelper, hdim]
    dsimp only
    by_cases hbefore : curdim + coord v.shape dim ≤ s
    · rw [if_pos (by exact_mod_cast hbefore)]
      exact ⟨ts, hts, hfits, hskip (.inl hbefore)⟩
    · rw [if_neg (by exact_mod_cast hbefore)]
      by_cases hafter : l ≤ curdim
      · rw [if_pos (by exact_mod_cast hafter)]
        exact ⟨ts, hts, hfits, hskip (.inr hafter)⟩
      · rw [if_neg (by exact_mod_cast hafter)]
        have hstart : (if (s : Int) - curdim < 0 then 0 else (s : Int) - curdim) = (s - curdim : Nat) := by
          split <;> omega
        have hlimit : (if (coord v.shape dim : Int) < l - curdim then (coord v.shape dim : Int) else l - curdim) =
            (min (l - curdim) (coord v.shape dim) : Nat) := by
          split <;> omega
        rw [hstart, hlimit]
        obtain ⟨t, ht, htfits, htsize, htread⟩ := slice_set hd hlen hok (hxs v mem_cons_self)
          (a := s - curdim) (b := min (l - curdim) (coord v.shape dim)) (by omega) (by omega)
        refine ⟨t :: ts, ?_, ?_, ?_, fun c hc hlt => ?_⟩
        · rw [map_cons, ht, allSome, hts, map_some]
        · intro t' ht'
          cases ht' with
          | head => exact htfits
          | tail _ ht' => exact hfits t' ht'
        · rw [total_cons, total_cons, htsize, htotal]
          omega
        · rw [total_cons, htsize] at hlt
          rw [pieceAt, pieceAt, htsize, taken_self]
          by_cases hin : c dim < min (l - curdim) (coord v.shape dim) - (s - curdim)
          · rw [if_pos hin, if_pos (by omega), htread c hc hin]
          · rw [if_neg hin, if_neg (by omega), update_taken, hpieces]
            · rw [taken_update, update_self]
              congr 2
              omega
            · intro e he hed
              rw [update_of_ne hed]
              exact hc e he hed
            · rw [update_self]
              omega

theorem sliceConcat_iff (hy : concatenate dim xs = some y) (hz : slice ds y = some z) {r : Option (Tensor α)}
    (hr : SliceConcat ds dim xs = some r) : (∃ w, r = some w ∧ Same w z) ↔ (Producer.concatenate dim xs).Fits ds := by
  obtain ⟨hd, -, hfits, -⟩ := pieces_of_concatenate hy
  obtain ⟨hlen, hzshape, hok, hread⟩ := read_slice hz
  have hd' : dim < ds.length := hlen.symm ▸ hd
  have hdimOk := hok dim hd'
  rw [SliceConcat] at hr
  split at hr
  · cases hr
  · rename_i hstride
    cases hr
    obtain ⟨hstart, hle, hlimit, -⟩ := hdimOk
    obtain ⟨s, hs⟩ := Int.eq_ofNat_of_zero_le hstart
    obtain ⟨l, hl⟩ := Int.eq_ofNat_of_zero_le (hstart.trans hle)
    have hdim : sliceDim ds dim = ⟨s, l, 1⟩ := by
      rw [← hs, ← hl, ← not_not.mp hstride]
    rw [hs, hl] at hle
    rw [hl, coord_concatenate hy] at hlimit
    obtain ⟨ts, hts, htfits, htotal, hpieces⟩ := sliceConcatHelper_spec hd hlen
      (fun d hd _ => hok d hd) hdim (by omega) hfits 0
    rw [← meets_iff hy hz, hts, bind_some]
    constructor
    · rintro ⟨w, hw, -⟩ hnil
      rw [hnil] at hts
      cases hts
      cases hw
    · intro hne
      have hts' : ts ≠ [] := by
        rintro rfl
        rw [allSome_eq_some_iff, map_nil, map_eq_nil_iff] at hts
        exact hne hts
      obtain ⟨w, hw, hwpieces⟩ := concatenate_pieces (by rwa [length_map]) hts' htfits
      have hsize : (sliceDim ds dim).size = l - s := by
        rw [hdim, SliceDim.size]
        change (((l : Int) - s + 1 - 1) / 1).toNat = _
        omega
      have hshape : w.shape = z.shape := by
        rw [hwpieces.shape_eq, hzshape, htotal, Nat.sub_zero, Nat.sub_zero, min_eq_left (by omega), ← hsize,
          ← coord_slice hz hd', hzshape, set_coord_self (by rwa [length_map])]
      refine ⟨w, hw, same_of_read hshape fun c hc => ?_⟩
      have hcz : Within z.shape c := hshape ▸ hc
      have hlt : ∀ e < ds.length, c e < (sliceDim ds e).size := by
        intro e he
        rw [← coord_slice hz he]
        exact hcz e (by rwa [length_slice hz])
      have hcd := hlt dim hd'
      rw [hsize] at hcd
      have hwread := read_concatenate hw hc
      rw [hpieces c (fun e he _ => hlt e he) (by omega)] at hwread
      have hyread := read_concatenate hy (within_source hz hcz)
      have hcoords : taken dim (fun d => (sliceDim ds d).source) (s - 0 + c dim) c =
          fun d => (sliceDim ds d).source (c d) := by
        funext e
        rw [taken]
        split
        · rename_i hed
          rw [hed, hdim, SliceDim.source]
          change _ = ((s : Int) + c dim * 1).toNat
          omega
        · rfl
      rw [hcoords, ← hyread, ← hread c hcz] at hwread
      exact some.inj hwread

end

/-! ### All of them -/

/-- Whatever makes the operand of a slice, what replaces the slice is the same if and only if the arithmetic does
not overflow and the new concatenation has an operand. -/
theorem slice_rewrite_iff {α : Type} {producer : Producer α} {ds : List SliceDim} {y z : Tensor α}
    {r : Option (Tensor α)} (hy : producer.eval = some y) (hz : slice ds y = some z)
    (hr : producer.rewrite ds = some r) : (∃ w, r = some w ∧ Same w z) ↔ producer.Fits ds := by
  cases producer with
  | slice prev x =>
    cases hr
    exact sliceSlice_iff hy hz
  | pad pads v x => exact iff_of_true (slicePad_same hy hz hr) trivial
  | concatenate dim xs => exact sliceConcat_iff hy hz hr

/-- The middle of two pieces, with an element of each. -/
theorem slice_rewrite_iff_middle : ∃ y z r, (Producer.concatenate 0 [iota 2, iota 2]).eval = some y ∧
    slice [⟨1, 3, 1⟩] y = some z ∧ (Producer.concatenate 0 [iota 2, iota 2]).rewrite [⟨1, 3, 1⟩] = some r ∧
      ∃ w, r = some w ∧ Same w z := by
  have hr : (Producer.concatenate 0 [iota 2, iota 2]).rewrite [⟨1, 3, 1⟩] =
      some (((allSome ((sliceConcatHelper 0 [⟨1, 3, 1⟩] 0 [iota 2, iota 2]).map fun p => slice p.1 p.2)).bind
        (concatenate 0))) := rfl
  exact ⟨_, _, _, rfl, rfl, hr, (slice_rewrite_iff rfl rfl hr).mpr (.inl (by decide))⟩

/-- A slice without elements between two pieces leaves a concatenation of nothing. -/
theorem not_slice_rewrite_empty : ∃ y z r, (Producer.concatenate 0 [iota 2, iota 2]).eval = some y ∧
    slice [⟨2, 2, 1⟩] y = some z ∧ (Producer.concatenate 0 [iota 2, iota 2]).rewrite [⟨2, 2, 1⟩] = some r ∧
      ¬∃ w, r = some w ∧ Same w z := by
  refine ⟨_, _, none, rfl, rfl, rfl, ?_⟩
  rintro ⟨w, hw, -⟩
  cases hw

end EnzymeJax.StaticSlices
