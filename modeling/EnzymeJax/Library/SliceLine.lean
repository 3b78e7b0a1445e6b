import EnzymeJax.Library.UpdateLine

/-!
# Lines of slices

Strided slices, reversals and slices at indices known at run time, along one dimension of a tensor.
-/

namespace Tensor

open List

variable {α : Type*}

/-! ### Strided slices -/

/-- The whole tensor, with a stride along dimension `d`. -/
def stridedAlong (d : Nat) (stride : Int) (shape : List Nat) : List SliceDim :=
  shape.mapIdx fun i (n : Nat) => ⟨0, n, if i = d then stride else 1⟩

def stridedSize (n : Nat) (stride : Int) : Nat := SliceDim.size ⟨0, n, stride⟩

variable {f : List Nat → Nat → α}

section

variable {d : Nat} {stride : Int} {shape : List Nat}

theorem stridedAlong_getElem {i : Nat} (hi : i < (stridedAlong d stride shape).length) (hi' : i < shape.length) :
    (stridedAlong d stride shape)[i] = ⟨0, shape[i], if i = d then stride else 1⟩ := by
  simp [stridedAlong]

theorem stridedAlong_ok (hstride : 0 < stride) :
    Forall₂ SliceDim.Ok (stridedAlong d stride shape) shape := by
  rw [forall₂_iff_get]
  refine ⟨by simp [stridedAlong], fun i hi hi' => ?_⟩
  rw [get_eq_getElem, get_eq_getElem, stridedAlong_getElem _ hi']
  refine ⟨le_rfl, Int.natCast_nonneg _, le_rfl, ?_⟩
  dsimp only
  split
  · exact hstride
  · exact Int.one_pos

theorem stridedAlong_size : (stridedAlong d stride shape).map SliceDim.size =
    shape.set d (stridedSize (coord shape d) stride) := by
  refine ext_getElem (by simp [stridedAlong]) fun i hi hi' => ?_
  have hlt : i < shape.length := by simpa [stridedAlong] using hi
  rw [getElem_map, stridedAlong_getElem _ hlt, getElem_set]
  by_cases heq : i = d
  · subst heq
    rw [if_pos rfl, if_pos rfl, coord_eq_getElem hlt]
    rfl
  · rw [if_neg heq, if_neg (Ne.symm heq)]
    simp [SliceDim.size]

theorem stridedAlong_source {idx : List Nat} (hidx : idx.length = shape.length) :
    List.zipWith SliceDim.source (stridedAlong d stride shape) idx = idx.set d (coord idx d * stride).toNat := by
  refine ext_getElem (by simp [stridedAlong, hidx]) fun i hi hi' => ?_
  have hi'' : i < idx.length := by simpa using hi'
  rw [getElem_zipWith, stridedAlong_getElem _ (hidx ▸ hi''), getElem_set]
  by_cases heq : i = d
  · subst heq
    rw [if_pos rfl, if_pos rfl, coord_eq_getElem hi'', SliceDim.source, Int.zero_add]
  · rw [if_neg heq, if_neg (Ne.symm heq), SliceDim.source, Int.zero_add, Int.mul_one, Int.toNat_natCast]

theorem stridedSize_mul {c m s : Int} (hc : 0 < c) (hm : 0 ≤ m) (hs : 0 < s) :
    stridedSize (c * m + 1).toNat (c * s) = (m / s).toNat + 1 := by
  have hsize : 0 ≤ c * m + 1 := by positivity
  have hsum : c * m + 1 - 0 + c * s - 1 = c * (m + s) := by ring
  have hquot : 0 ≤ m / s := Int.ediv_nonneg hm hs.le
  rw [stridedSize, SliceDim.size]
  dsimp only
  rw [Int.toNat_of_nonneg hsize, hsum, Int.mul_ediv_mul_of_pos _ _ hc, Int.add_ediv_of_dvd_right
    (Int.dvd_refl s), Int.ediv_self hs.ne']
  omega

theorem Along.strided {n : Nat} {x : Tensor α} (h : Along d shape n f x) (hd : d < shape.length)
    (hstride : 0 < stride) : ∃ y, Tensor.slice (stridedAlong d stride x.shape) x = some y ∧
      Along d shape (stridedSize n stride) (fun idx k => f idx (k * stride).toNat) y := by
  have hok : Forall₂ SliceDim.Ok (stridedAlong d stride x.shape) x.shape :=
    stridedAlong_ok hstride
  refine ⟨_, if_pos hok, ?_, fun idx hidx k hk => ?_⟩
  · rw [stridedAlong_size, h.coord_shape hd, h.set_shape]
  · have hlen : (idx.set d k).length = x.shape.length := by
      rw [length_set, length_of_mem_indices hidx, length_set, h.length_shape]
    have hlt : (k * stride).toNat < n := by
      have hlt := SliceDim.source_lt (d := ⟨0, n, stride⟩)
        ⟨le_rfl, Int.natCast_nonneg _, le_rfl, hstride⟩ hk
      rwa [SliceDim.source, Int.zero_add] at hlt
    change x.get _ = _
    rw [stridedAlong_source hlen, coord_set_of_mem hd hidx, set_set]
    exact h.get_eq idx hidx _ hlt

end

/-! ### Reversals -/

def reverse (dims : List Nat) (x : Tensor α) : Tensor α :=
  ⟨x.shape, fun idx => x.get (idx.mapIdx fun i k => if i ∈ dims then coord x.shape i - 1 - k else k)⟩

theorem Along.reverse {d n : Nat} {shape : List Nat} {x : Tensor α} (h : Along d shape n f x)
    (hd : d < shape.length) : Along d shape n (fun idx k => f idx (n - 1 - k)) (Tensor.reverse [d] x) := by
  refine ⟨h.shape_eq, fun idx hidx k hk => ?_⟩
  have hsrc : (idx.set d k).mapIdx (fun i k => if i ∈ [d] then coord x.shape i - 1 - k else k) =
      idx.set d (n - 1 - k) := by
    refine ext_getElem (by simp) fun i hi hi' => ?_
    rw [getElem_mapIdx, getElem_set, getElem_set]
    by_cases heq : d = i
    · subst heq
      rw [if_pos rfl, if_pos rfl, if_pos (mem_singleton_self _), h.coord_shape hd]
    · rw [if_neg heq, if_neg heq, if_neg fun hmem => heq (mem_singleton.mp hmem).symm]
  change x.get _ = _
  rw [hsrc]
  exact h.get_eq idx hidx _ (by omega)

theorem Along.get_of_one {d : Nat} {shape idx : List Nat} {x : Tensor α} (h : Along d shape 1 f x)
    (hd : d < shape.length) (hidx : idx ∈ indices (shape.set d 1)) : x.get idx = f idx 0 := by
  have hzero : coord idx d = 0 := Nat.lt_one_iff.mp (coord_lt_of_mem_set hd hidx)
  have hset : idx.set d 0 = idx := by
    rw [← hzero, set_coord_self (by rwa [length_of_mem_indices hidx, length_set])]
  have hget := h.get_eq idx hidx 0 one_pos
  rwa [hset] at hget

/-! ### Slices at indices known at run time -/

section

variable {d m : Nat} {sizes : List Nat} {ss : List Int} {a : Int} {x : Tensor α}

/-- What a slice of the tensor has along dimension `d`, if it starts there at `c`. -/
def sliceLine (d : Nat) (sizes : List Nat) (ss : List Int) (x : Tensor α) (c : Nat) (idx : List Nat)
    (k : Nat) : α :=
  x.get ((List.zipWith (· + ·) (List.zipWith3 clampStart x.shape sizes ss) idx).set d (c + k))

theorem Along.dynamicSlice (hd : d < x.shape.length) (hsizes : sizes.length = x.shape.length)
    (hss : ss.length = x.shape.length)
    (hfit : ∀ e < x.shape.length, e ≠ d → coord sizes e ≤ coord x.shape e) (hm : m ≤ coord x.shape d) :
    ∃ y, Tensor.dynamicSlice (ss.set d a) (sizes.set d m) x = some y ∧
      Along d sizes m (sliceLine d sizes ss x (clampStart (coord x.shape d) m a)) y := by
  refine ⟨_, if_pos ((dynamicSliceOk_set hd hsizes hss hfit).mpr hm), rfl, fun idx hidx k hk => ?_⟩
  change x.get (dynamicIndex _ _ _ _) = _
  rw [dynamicIndex, clampStarts_set, sliceLine]
  refine congrArg x.get (ext_getElem (by simp) fun i hi hi' => ?_)
  rw [getElem_zipWith, getElem_set, getElem_set, getElem_set, getElem_zipWith]
  split
  · rfl
  · rfl

/-- Two slices have the same elements at two places of their lines, whatever the operand, if and only if
these are one element of the operand, unless the slices are empty in another dimension. -/
theorem sliceLine_eq_iff [Nontrivial α] {shape : List Nat} {c c' k k' : Nat} (hd : d < shape.length)
    (hsizes : sizes.length = shape.length) (hss : ss.length = shape.length) :
    (∀ x : Tensor α, x.shape = shape → ∀ idx ∈ indices (sizes.set d 1),
      sliceLine d sizes ss x c idx k = sliceLine d sizes ss x c' idx k') ↔
        (∃ e < shape.length, e ≠ d ∧ coord sizes e = 0) ∨ c + k = c' + k' := by
  have hd' : d < sizes.length := hsizes.symm ▸ hd
  constructor
  · intro h
    by_contra hnot
    obtain ⟨hpos, hne⟩ := not_or.mp hnot
    simp only [not_exists, not_and] at hpos
    have hpos' : ∀ n ∈ sizes.set d 1, 0 < n := by
      intro n hn
      obtain ⟨e, he, rfl⟩ := getElem_of_mem hn
      rw [length_set] at he
      rw [getElem_set]
      split
      · exact one_pos
      · rename_i hed
        rw [← coord_eq_getElem he]
        exact pos_of_ne_zero (hpos e (hsizes ▸ he) (Ne.symm hed))
    -- The two elements of the operand are told apart by their coordinate.
    obtain ⟨p, q, hpq⟩ := exists_pair_ne α
    have hidx := zeros_mem_indices hpos'
    have hread := h ⟨shape, fun idx => if coord idx d = c + k then p else q⟩ rfl _ hidx
    have hlen : d < (List.zipWith (· + ·) (List.zipWith3 clampStart shape sizes ss)
        (replicate (sizes.set d 1).length 0)).length := by
      rw [length_zipWith, length_clampStarts hss hsizes, length_replicate, length_set, hsizes, min_self]
      exact hd
    rw [sliceLine, sliceLine] at hread
    dsimp only at hread
    rw [coord_set_self hlen, coord_set_self hlen, if_pos rfl, if_neg (Ne.symm hne)] at hread
    exact hpq hread
  · intro h x hx idx hidx
    cases h with
    | inl hempty =>
      obtain ⟨e, he, hed, hzero⟩ := hempty
      have hlt := coord_lt hidx (d := e) (by rw [length_set, hsizes]; exact he)
      rw [coord_set_of_ne hed, hzero] at hlt
      exact absurd hlt (Nat.not_lt_zero _)
    | inr heq => rw [sliceLine, sliceLine, heq]

end

end Tensor
