import EnzymeJax.Library.Along

/-!
# Slices at indices known at run time

A start index is clamped so that the slice fits.
-/

namespace Tensor

open List Option

variable {α : Type*}

def clampStart (dim size : Nat) (start : Int) : Nat := (max 0 (min start (dim - size))).toNat

/-- The element of the operand that is at `idx` of the slice. -/
def dynamicIndex (shape sizes : List Nat) (starts : List Int) (idx : List Nat) : List Nat :=
  List.zipWith (· + ·) (List.zipWith3 clampStart shape sizes starts) idx

def DynamicSliceOk (shape sizes : List Nat) (numStarts : Nat) : Prop :=
  numStarts = shape.length ∧ List.Forall₂ (· ≤ ·) sizes shape

instance (shape sizes : List Nat) (numStarts : Nat) :
    Decidable (DynamicSliceOk shape sizes numStarts) :=
  inferInstanceAs (Decidable (_ ∧ _))

def dynamicSlice (starts : List Int) (sizes : List Nat) (x : Tensor α) : Option (Tensor α) :=
  if DynamicSliceOk x.shape sizes starts.length then
    some ⟨sizes, fun idx => x.get (dynamicIndex x.shape sizes starts idx)⟩
  else none

theorem clampStart_eq {dim size : Nat} (start : Nat) (h : start + size ≤ dim) :
    clampStart dim size start = start := by
  rw [clampStart]
  omega

theorem clampStart_le {dim size : Nat} (h : size ≤ dim) (start : Int) :
    clampStart dim size start + size ≤ dim := by
  rw [clampStart]
  omega

theorem coord_le_of_forall₂ {sizes shape : List Nat} (h : Forall₂ (· ≤ ·) sizes shape) (d : Nat) :
    coord sizes d ≤ coord shape d := by
  by_cases hd : d < shape.length
  · rw [coord_eq_getElem (h.length_eq.symm ▸ hd), coord_eq_getElem hd]
    exact (forall₂_iff_get.mp h).2 d (h.length_eq.symm ▸ hd) hd
  · rw [coord, getD_eq_default _ _ (h.length_eq.symm ▸ not_lt.mp hd)]
    exact Nat.zero_le _

theorem length_clampStarts {starts : List Int} {shape sizes : List Nat} (hstarts : starts.length = shape.length)
    (hsizes : sizes.length = shape.length) : (zipWith3 clampStart shape sizes starts).length = shape.length := by
  induction shape generalizing starts sizes with
  | nil => rfl
  | cons n shape ih =>
    obtain ⟨start, starts, rfl⟩ := exists_cons_of_length_eq_add_one hstarts
    obtain ⟨size, sizes, rfl⟩ := exists_cons_of_length_eq_add_one hsizes
    exact congrArg (· + 1) (ih (add_right_cancel hstarts) (add_right_cancel hsizes))

theorem dynamicIndex_along {d n m : Nat} {shape idx : List Nat} {start : Int} (hidx : idx ∈ indices (shape.set d m)) :
    dynamicIndex (shape.set d n) (shape.set d m) ((replicate shape.length 0).set d start) idx =
      idx.set d (clampStart n m start + coord idx d) := by
  induction shape generalizing d idx with
  | nil =>
    obtain rfl := mem_indices_nil.mp hidx
    rfl
  | cons k shape ih =>
    have hzeros : ∀ {shape' idx' : List Nat}, idx' ∈ indices shape' →
        dynamicIndex shape' shape' (replicate shape'.length 0) idx' = idx' := by
      intro shape' idx' hidx'
      induction shape' generalizing idx' with
      | nil =>
        obtain rfl := mem_indices_nil.mp hidx'
        rfl
      | cons k' shape' ih' =>
        obtain ⟨i, -, rest, hrest, rfl⟩ := mem_indices_cons.mp hidx'
        have hclamp : clampStart k' k' 0 = 0 := clampStart_eq 0 (zero_add _).le
        have hrest := ih' hrest
        rw [dynamicIndex] at hrest ⊢
        rw [length_cons, replicate_succ, zipWith3, zipWith_cons_cons, hclamp, zero_add, hrest]
    cases d with
    | zero =>
      obtain ⟨i, -, rest, hrest, rfl⟩ := mem_indices_cons.mp hidx
      have hrest := hzeros hrest
      rw [dynamicIndex] at hrest ⊢
      rw [length_cons, replicate_succ, set_cons_zero, set_cons_zero,
        set_cons_zero, zipWith3, zipWith_cons_cons, hrest]
      rfl
    | succ d =>
      obtain ⟨i, -, rest, hrest, rfl⟩ := mem_indices_cons.mp hidx
      have hclamp : clampStart k k 0 = 0 := clampStart_eq 0 (zero_add _).le
      have hrest := ih hrest
      rw [dynamicIndex] at hrest ⊢
      rw [length_cons, replicate_succ, set_cons_succ, set_cons_succ,
        set_cons_succ, zipWith3, zipWith_cons_cons, hclamp, zero_add, hrest]
      rfl

/-! ### Regions -/

/-- The place of an index in the region that starts at `starts`, if it is in the region. -/
def regionIndex (starts sizes idx : List Nat) : Option (List Nat) :=
  allSome (List.zipWith3 (fun start size i => if start ≤ i ∧ i - start < size then some (i - start)
    else none) starts sizes idx)

def dynamicUpdateSlice (starts : List Int) (update x : Tensor α) : Option (Tensor α) :=
  if DynamicSliceOk x.shape update.shape starts.length then
    some ⟨x.shape, fun idx =>
      ((regionIndex (List.zipWith3 clampStart x.shape update.shape starts) update.shape idx).map
        update.get).getD (x.get idx)⟩
  else none

theorem mem_indices_iff {shape idx : List Nat} : idx ∈ indices shape ↔
    idx.length = shape.length ∧ ∀ d < shape.length, coord idx d < coord shape d := by
  rw [mem_indices, forall₂_iff_get]
  refine and_congr_right fun hlen => ?_
  constructor
  · intro h d hd
    rw [coord, coord, getD_eq_getElem _ _ hd, getD_eq_getElem _ _ (hlen.symm ▸ hd)]
    exact h d (hlen.symm ▸ hd) hd
  · intro h d hd hd'
    have hlt := h d hd'
    rwa [coord, coord, getD_eq_getElem _ _ hd, getD_eq_getElem _ _ hd'] at hlt

section

variable {starts sizes idx shape lows highs : List Nat}

/-- The region of an index. -/
def InRegion (starts sizes idx : List Nat) : Prop :=
  ∀ d < idx.length, coord starts d ≤ coord idx d ∧ coord idx d - coord starts d < coord sizes d

theorem inRegion_cons {start size i : Nat} : InRegion (start :: starts) (size :: sizes) (i :: idx) ↔
    (start ≤ i ∧ i - start < size) ∧ InRegion starts sizes idx := by
  constructor
  · intro h
    exact ⟨h 0 (Nat.succ_pos _), fun d hd => h (d + 1) (Nat.succ_lt_succ hd)⟩
  · intro ⟨hhead, htail⟩ d hd
    cases d with
    | zero => exact hhead
    | succ d => exact htail d (Nat.lt_of_succ_lt_succ hd)

theorem regionIndex_of_inRegion (hstarts : starts.length = idx.length) (hsizes : sizes.length = idx.length)
    (h : InRegion starts sizes idx) : regionIndex starts sizes idx = some (List.zipWith (· - ·) idx starts) := by
  rw [regionIndex]
  induction idx generalizing starts sizes with
  | nil =>
    obtain rfl := length_eq_zero_iff.mp hstarts
    rfl
  | cons i idx ih =>
    obtain ⟨start, starts, rfl⟩ := exists_cons_of_length_eq_add_one hstarts
    obtain ⟨size, sizes, rfl⟩ := exists_cons_of_length_eq_add_one hsizes
    obtain ⟨hhead, htail⟩ := inRegion_cons.mp h
    rw [zipWith3, if_pos hhead, allSome, ih (add_right_cancel hstarts) (add_right_cancel hsizes) htail, map_some,
      zipWith_cons_cons]

theorem regionIndex_of_not_inRegion (hstarts : starts.length = idx.length) (hsizes : sizes.length = idx.length)
    (h : ¬InRegion starts sizes idx) : regionIndex starts sizes idx = none := by
  rw [regionIndex]
  induction idx generalizing starts sizes with
  | nil => exact absurd (fun d (hd : d < 0) => absurd hd (Nat.not_lt_zero d)) h
  | cons i idx ih =>
    obtain ⟨start, starts, rfl⟩ := exists_cons_of_length_eq_add_one hstarts
    obtain ⟨size, sizes, rfl⟩ := exists_cons_of_length_eq_add_one hsizes
    rw [zipWith3]
    by_cases hhead : start ≤ i ∧ i - start < size
    · rw [if_pos hhead, allSome, ih (add_right_cancel hstarts) (add_right_cancel hsizes)
        fun htail => h (inRegion_cons.mpr ⟨hhead, htail⟩), map_none]
    · rw [if_neg hhead, allSome]

theorem add_of_regionIndex {j : List Nat} (hstarts : starts.length = idx.length) (hsizes : sizes.length = idx.length)
    (h : regionIndex starts sizes idx = some j) : List.zipWith (· + ·) starts j = idx := by
  rw [regionIndex] at h
  induction idx generalizing starts sizes j with
  | nil =>
    obtain rfl := length_eq_zero_iff.mp hstarts
    rfl
  | cons i idx ih =>
    obtain ⟨start, starts, rfl⟩ := exists_cons_of_length_eq_add_one hstarts
    obtain ⟨size, sizes, rfl⟩ := exists_cons_of_length_eq_add_one hsizes
    rw [zipWith3] at h
    by_cases hhead : start ≤ i ∧ i - start < size
    · rw [if_pos hhead, allSome] at h
      obtain ⟨rest, hrest, rfl⟩ := map_eq_some_iff.mp h
      rw [zipWith_cons_cons, ih (add_right_cancel hstarts) (add_right_cancel hsizes) hrest, Nat.add_sub_cancel' hhead.1]
    · rw [if_neg hhead, allSome] at h
      cases h

theorem sub_mem_indices (hstarts : starts.length = idx.length) (hsizes : sizes.length = idx.length)
    (h : InRegion starts sizes idx) : List.zipWith (· - ·) idx starts ∈ indices sizes := by
  rw [mem_indices_iff, length_zipWith, hstarts, min_self]
  refine ⟨hsizes.symm, fun d hd => ?_⟩
  have hd : d < idx.length := hsizes ▸ hd
  have hsub : coord (List.zipWith (· - ·) idx starts) d = coord idx d - coord starts d := by
    have hd' : d < starts.length := hstarts.symm ▸ hd
    have hzip : d < (List.zipWith (· - ·) idx starts).length := by simpa [hstarts] using hd
    rw [coord, coord, coord, getD_eq_getElem _ _ hd, getD_eq_getElem _ _ hd', getD_eq_getElem _ _ hzip, getElem_zipWith]
  rw [hsub]
  exact (h d hd).2

theorem regionIndex_mem {starts sizes idx j : List Nat} (hstarts : starts.length = idx.length)
    (hsizes : sizes.length = idx.length) (h : regionIndex starts sizes idx = some j) : j ∈ indices sizes := by
  by_cases hin : InRegion starts sizes idx
  · rw [regionIndex_of_inRegion hstarts hsizes hin] at h
    cases h
    exact sub_mem_indices hstarts hsizes hin
  · rw [regionIndex_of_not_inRegion hstarts hsizes hin] at h
    cases h

theorem clampStarts_eq {sizes : List Nat} (hstarts : starts.length = shape.length)
    (hsizes : sizes.length = shape.length) (hfit : ∀ d < shape.length, coord starts d + coord sizes d ≤ coord shape d) :
    zipWith3 clampStart shape sizes (starts.map Int.ofNat) = starts := by
  induction shape generalizing sizes starts with
  | nil =>
    obtain rfl := length_eq_zero_iff.mp hstarts
    obtain rfl := length_eq_zero_iff.mp hsizes
    rfl
  | cons n shape ih =>
    obtain ⟨start, starts, rfl⟩ := exists_cons_of_length_eq_add_one hstarts
    obtain ⟨size, sizes, rfl⟩ := exists_cons_of_length_eq_add_one hsizes
    have hhead : clampStart n size (Int.ofNat start) = start :=
      clampStart_eq start (hfit 0 (Nat.succ_pos _))
    rw [map_cons, zipWith3, hhead, ih (add_right_cancel hstarts) (add_right_cancel hsizes)
        fun d hd => hfit (d + 1) (Nat.succ_lt_succ hd)]

variable {x update : Tensor α}

theorem dynamicUpdateSlice_eq (hstarts : starts.length = x.shape.length) (hupd : update.shape.length = x.shape.length)
    (hfit : ∀ d < x.shape.length, coord starts d + coord update.shape d ≤ coord x.shape d) :
    ∃ y, dynamicUpdateSlice (starts.map Int.ofNat) update x = some y ∧ y.shape = x.shape ∧
      ∀ idx ∈ indices x.shape, (InRegion starts update.shape idx →
          y.get idx = update.get (List.zipWith (· - ·) idx starts)) ∧
        (¬InRegion starts update.shape idx → y.get idx = x.get idx) := by
  have hok : DynamicSliceOk x.shape update.shape (starts.map Int.ofNat).length := by
    refine ⟨by rw [length_map, hstarts], forall₂_iff_get.mpr ⟨hupd, fun d hd hd' => ?_⟩⟩
    have hfit := hfit d hd'
    rw [coord, coord, coord, getD_eq_getElem _ _ hd, getD_eq_getElem _ _ hd',
      getD_eq_getElem _ _ (hstarts ▸ hd')] at hfit
    exact le_of_add_le_right hfit
  refine ⟨_, if_pos hok, rfl, fun idx hidx => ?_⟩
  have hlen := length_of_mem_indices hidx
  constructor
  · intro hin
    change ((regionIndex _ _ idx).map update.get).getD (x.get idx) = _
    rw [clampStarts_eq hstarts hupd hfit, regionIndex_of_inRegion (hstarts.trans hlen.symm) (hupd.trans hlen.symm) hin]
    rfl
  · intro hout
    change ((regionIndex _ _ idx).map update.get).getD (x.get idx) = _
    rw [clampStarts_eq hstarts hupd hfit, regionIndex_of_not_inRegion
      (hstarts.trans hlen.symm) (hupd.trans hlen.symm) hout]
    rfl

theorem regionIndex_full {starts : List Int} (hstarts : starts.length = shape.length) (hidx : idx ∈ indices shape) :
    regionIndex (zipWith3 clampStart shape shape starts) shape idx = some idx := by
  rw [regionIndex]
  induction shape generalizing starts idx with
  | nil =>
    obtain rfl := mem_indices_nil.mp hidx
    rfl
  | cons n shape ih =>
    obtain ⟨start, starts, rfl⟩ := exists_cons_of_length_eq_add_one hstarts
    obtain ⟨i, hi, rest, hrest, rfl⟩ := mem_indices_cons.mp hidx
    have hclamp : clampStart n n start = 0 := by
      have hle := clampStart_le (le_refl n) start
      omega
    rw [List.zipWith3, List.zipWith3, hclamp, if_pos ⟨Nat.zero_le i, hi⟩, allSome,
      ih (add_right_cancel hstarts) hrest, map_some, Nat.sub_zero]

theorem dynamicUpdateSlice_full {starts : List Int} (hstarts : starts.length = x.shape.length)
    (hupd : update.shape = x.shape) : ∃ y, dynamicUpdateSlice starts update x = some y ∧ Same y update := by
  have hok : DynamicSliceOk x.shape update.shape starts.length :=
    ⟨hstarts, hupd ▸ forall₂_same.mpr fun _ _ => le_refl _⟩
  refine ⟨_, if_pos hok, hupd.symm, fun idx hidx => ?_⟩
  change ((regionIndex (zipWith3 clampStart x.shape update.shape starts) update.shape idx).map
    update.get).getD (x.get idx) = _
  rw [hupd, regionIndex_full hstarts hidx]
  rfl

/-- Padding before and after every dimension. -/
def padDims (lows highs : List Nat) : List PadDim :=
  List.zipWith (fun (low high : Nat) => ⟨low, high, 0⟩) lows highs

theorem padDims_source (hlows : lows.length = shape.length) (hhighs : highs.length = shape.length) :
    allSome (zipWith3 (fun (d : PadDim) n (q : Nat) => d.source n q) (padDims lows highs) shape
      idx) = regionIndex lows shape idx := by
  rw [regionIndex]
  refine congrArg allSome ?_
  induction shape generalizing lows highs idx with
  | nil =>
    obtain rfl := length_eq_zero_iff.mp hlows
    rfl
  | cons n shape ih =>
    obtain ⟨low, lows, rfl⟩ := exists_cons_of_length_eq_add_one hlows
    obtain ⟨high, highs, rfl⟩ := exists_cons_of_length_eq_add_one hhighs
    cases idx with
    | nil => rfl
    | cons i idx =>
      rw [padDims, zipWith_cons_cons, zipWith3, zipWith3, PadDim.source_low]
      exact congrArg _ (ih (add_right_cancel hlows) (add_right_cancel hhighs))

theorem pad_region (v : α) (hlows : lows.length = x.shape.length) (hhighs : highs.length = x.shape.length) :
    ∃ y, pad (padDims lows highs) v x = some y ∧
      y.shape = List.zipWith (· + ·) (List.zipWith (· + ·) lows x.shape) highs ∧
      ∀ idx ∈ indices y.shape, (InRegion lows x.shape idx → y.get idx = x.get (List.zipWith (· - ·) idx lows)) ∧
        (¬InRegion lows x.shape idx → y.get idx = v) := by
  have hsize : ∀ low high n : Nat, PadDim.size ⟨low, high, 0⟩ n = (low + n + high : Nat) := by
    intro low high n
    simp [PadDim.size, PadDim.dilated]
  have hok : Forall₂ PadDim.Ok (padDims lows highs) x.shape := by
    rw [forall₂_iff_get]
    refine ⟨by simp [padDims, hlows, hhighs], fun i hi hi' => ?_⟩
    rw [get_eq_getElem]
    simp only [padDims, getElem_zipWith]
    rw [PadDim.Ok, hsize]
    exact ⟨Int.le_refl 0, Int.natCast_nonneg _⟩
  have hshape : List.zipWith (fun d dim => (PadDim.size d dim).toNat) (padDims lows highs) x.shape =
      List.zipWith (· + ·) (List.zipWith (· + ·) lows x.shape) highs := by
    refine ext_getElem (by simp [padDims, hlows, hhighs]) fun i hi hi' => ?_
    simp only [padDims, getElem_zipWith, hsize, Int.toNat_natCast]
  refine ⟨_, if_pos hok, hshape, fun idx hidx => ?_⟩
  have hlen : idx.length = x.shape.length := by
    have hlen := length_of_mem_indices hidx
    rw [hlen]
    simp [padDims, hlows, hhighs]
  constructor
  · intro hin
    change ((allSome (zipWith3 _ _ _ idx)).map x.get).getD v = _
    rw [padDims_source hlows hhighs, regionIndex_of_inRegion (hlows.trans hlen.symm) hlen.symm hin]
    rfl
  · intro hout
    change ((allSome (zipWith3 _ _ _ idx)).map x.get).getD v = _
    rw [padDims_source hlows hhighs, regionIndex_of_not_inRegion (hlows.trans hlen.symm) hlen.symm hout]
    rfl

end

end Tensor
