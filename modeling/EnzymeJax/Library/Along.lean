import EnzymeJax.Library.Layout
import EnzymeJax.Library.DataMovement

/-!
# Tensors along one dimension

Slices and concatenations along one dimension leave the other coordinates as they are, so they are
described by what they do to a function of the position along that dimension.
-/

namespace Tensor

open List Option

variable {α : Type*}

/-- Tensors with the same elements. -/
structure Same (x y : Tensor α) : Prop where
  shape_eq : x.shape = y.shape
  get_eq : ∀ idx ∈ indices x.shape, x.get idx = y.get idx

namespace Same

variable {x y z : Tensor α}

theorem refl (x : Tensor α) : Same x x := ⟨rfl, fun _ _ => rfl⟩

theorem symm (h : Same x y) : Same y x :=
  ⟨h.shape_eq.symm, fun idx hidx => (h.get_eq idx (h.shape_eq ▸ hidx)).symm⟩

theorem trans (h : Same x y) (h' : Same y z) : Same x z :=
  ⟨h.shape_eq.trans h'.shape_eq, fun idx hidx => (h.get_eq idx hidx).trans (h'.get_eq idx (h.shape_eq ▸ hidx))⟩

end Same

/-- Along dimension `d` the tensor has extent `n` and the elements `f`, for every choice of the other
coordinates; these are within `shape`. -/
structure Along (d : Nat) (shape : List Nat) (n : Nat) (f : List Nat → Nat → α) (x : Tensor α) :
    Prop where
  shape_eq : x.shape = shape.set d n
  get_eq : ∀ idx ∈ indices (shape.set d 1), ∀ k < n, x.get (idx.set d k) = f idx k

/-! ### Indices -/

section

variable {d n k : Nat} {shape idx : List Nat}

theorem set_mem_indices (h : idx ∈ indices (shape.set d n)) {m : Nat} (hk : k < m) :
    idx.set d k ∈ indices (shape.set d m) := by
  induction shape generalizing d idx with
  | nil =>
    obtain rfl := mem_indices_nil.mp h
    exact h
  | cons m' shape ih =>
    cases d with
    | zero =>
      obtain ⟨i, -, rest, hrest, rfl⟩ := mem_indices_cons.mp h
      exact cons_mem_indices.mpr ⟨hk, hrest⟩
    | succ d =>
      obtain ⟨i, hi, rest, hrest, rfl⟩ := mem_indices_cons.mp h
      exact cons_mem_indices.mpr ⟨hi, ih hrest⟩

section

variable (hd : d < shape.length) (h : idx ∈ indices (shape.set d n))

include hd h

theorem pos_of_mem_set (hpos : 0 < coord shape d) : ∀ n ∈ shape, 0 < n := by
  have hmem := set_mem_indices h hpos
  rw [set_coord_self hd] at hmem
  exact pos_of_mem_indices hmem

theorem coord_lt_of_mem_set : coord idx d < n := by
  have hlt := coord_lt h (by rwa [length_set])
  rwa [coord_set_self hd] at hlt

theorem exists_line : idx.set d 0 ∈ indices (shape.set d 1) ∧ coord idx d < n ∧
      idx = (idx.set d 0).set d (coord idx d) := by
  have hd' : d < idx.length := by rwa [length_of_mem_indices h, length_set]
  exact ⟨set_mem_indices h zero_lt_one, coord_lt_of_mem_set hd h, by rw [set_set, set_coord_self hd']⟩

theorem coord_set_of_mem : coord (idx.set d k) d = k :=
  coord_set_self (by rwa [length_of_mem_indices h, length_set]) k

end

end

/-! ### Lines of a tensor -/

namespace Along

variable {d n m : Nat} {shape : List Nat} {f g : List Nat → Nat → α} {x y : Tensor α}

theorem self (hd : d < x.shape.length) :
    Along d x.shape (coord x.shape d) (fun idx k => x.get (idx.set d k)) x :=
  ⟨(set_coord_self hd).symm, fun _ _ _ _ => rfl⟩

theorem of_shape (hx : x.shape = shape.set d n) :
    Along d shape n (fun idx k => x.get (idx.set d k)) x :=
  ⟨hx, fun _ _ _ _ => rfl⟩

theorem congr (h : Along d shape n f x)
    (heq : ∀ idx ∈ indices (shape.set d 1), ∀ k < n, f idx k = g idx k) : Along d shape n g x :=
  ⟨h.shape_eq, fun idx hidx k hk => (h.get_eq idx hidx k hk).trans (heq idx hidx k hk)⟩

theorem of_same (h : Along d shape n f x) (hsame : Same y x) : Along d shape n f y := by
  refine ⟨hsame.shape_eq.trans h.shape_eq, fun idx hidx k hk => ?_⟩
  have hmem := set_mem_indices hidx hk
  rw [← h.shape_eq, ← hsame.shape_eq] at hmem
  exact (hsame.get_eq _ hmem).trans (h.get_eq idx hidx k hk)

theorem same (hd : d < shape.length) (hx : Along d shape n f x) (hy : Along d shape n f y) : Same x y := by
  refine ⟨hx.shape_eq.trans hy.shape_eq.symm, fun idx hidx => ?_⟩
  rw [hx.shape_eq] at hidx
  obtain ⟨hbase, hk, heq⟩ := exists_line hd hidx
  rw [heq, hx.get_eq _ hbase _ hk, hy.get_eq _ hbase _ hk]

theorem coord_shape (h : Along d shape n f x) (hd : d < shape.length) : coord x.shape d = n := by
  rw [h.shape_eq, coord_set_self hd]

theorem set_shape (h : Along d shape n f x) : x.shape.set d m = shape.set d m := by
  rw [h.shape_eq, set_set]

theorem length_shape (h : Along d shape n f x) : x.shape.length = shape.length := by
  rw [h.shape_eq, length_set]

theorem of_set (h : Along d (shape.set d m) n f x) : Along d shape n f x :=
  ⟨by rw [h.shape_eq, set_set], fun idx hidx => h.get_eq idx (by rwa [set_set])⟩

end Along

/-! ### Slices -/

/-- The slice `[start, limit)` along dimension `d` of a tensor of shape `shape`. -/
def sliceAlong (d : Nat) (start limit : Int) (shape : List Nat) : List SliceDim :=
  shape.mapIdx fun i (n : Nat) => if i = d then ⟨start, limit, 1⟩ else ⟨0, n, 1⟩

section

variable {d : Nat} {start limit : Int} {shape : List Nat}

theorem sliceAlong_getElem {i : Nat} (hi : i < (sliceAlong d start limit shape).length)
    (hi' : i < shape.length) : (sliceAlong d start limit shape)[i] =
      if i = d then ⟨start, limit, 1⟩ else ⟨0, shape[i], 1⟩ := by
  simp [sliceAlong]

theorem sliceAlong_ok_iff (hd : d < shape.length) :
    Forall₂ SliceDim.Ok (sliceAlong d start limit shape) shape ↔ 0 ≤ start ∧ start ≤ limit ∧ limit ≤ coord shape d := by
  have hcoord : coord shape d = shape[d] := by rw [coord, getD_eq_getElem _ _ hd]
  rw [forall₂_iff_get, hcoord]
  constructor
  · rintro ⟨-, h⟩
    have h := h d (by simpa [sliceAlong] using hd) hd
    rw [get_eq_getElem, get_eq_getElem, sliceAlong_getElem _ hd, if_pos rfl] at h
    exact ⟨h.1, h.2.1, h.2.2.1⟩
  · rintro ⟨hstart, hle, hlimit⟩
    refine ⟨by simp [sliceAlong], fun i hi hi' => ?_⟩
    rw [get_eq_getElem, get_eq_getElem, sliceAlong_getElem _ hi']
    by_cases heq : i = d
    · subst heq
      rw [if_pos rfl]
      exact ⟨hstart, hle, hlimit, Int.one_pos⟩
    · rw [if_neg heq]
      exact ⟨le_rfl, Int.natCast_nonneg _, le_rfl, Int.one_pos⟩

theorem sliceAlong_size : (sliceAlong d start limit shape).map SliceDim.size = shape.set d (limit - start).toNat := by
  refine ext_getElem (by simp [sliceAlong]) fun i hi hi' => ?_
  have hlt : i < shape.length := by simpa [sliceAlong] using hi
  rw [getElem_map, sliceAlong_getElem _ hlt, getElem_set]
  by_cases heq : i = d
  · rw [if_pos heq, if_pos heq.symm]
    simp [SliceDim.size]
  · rw [if_neg heq, if_neg (Ne.symm heq)]
    simp [SliceDim.size]

theorem sliceAlong_source {idx : List Nat} (hidx : idx.length = shape.length) (hstart : 0 ≤ start) :
    List.zipWith SliceDim.source (sliceAlong d start limit shape) idx = idx.set d (start.toNat + coord idx d) := by
  refine ext_getElem (by simp [sliceAlong, hidx]) fun i hi hi' => ?_
  have hi'' : i < idx.length := by simpa using hi'
  rw [getElem_zipWith, sliceAlong_getElem _ (hidx ▸ hi''), getElem_set]
  by_cases heq : i = d
  · have hcoord : coord idx d = idx[i] := by rw [coord, ← heq, getD_eq_getElem _ _ hi'']
    rw [if_pos heq, if_pos heq.symm, hcoord]
    simp only [SliceDim.source]
    omega
  · rw [if_neg heq, if_neg (Ne.symm heq)]
    simp only [SliceDim.source]
    omega

section

variable {n : Nat} {f : List Nat → Nat → α} {x : Tensor α} (h : Along d shape n f x)

include h

theorem Along.slice
    (start limit : Int) (hd : d < shape.length) (hstart : 0 ≤ start) (hle : start ≤ limit) (hlimit : limit ≤ n) :
    ∃ y, Tensor.slice (sliceAlong d start limit x.shape) x = some y ∧
      Along d shape (limit - start).toNat (fun idx k => f idx (start.toNat + k)) y := by
  have hd' : d < x.shape.length := by rwa [h.length_shape]
  have hok : Forall₂ SliceDim.Ok (sliceAlong d start limit x.shape) x.shape := by
    rw [sliceAlong_ok_iff hd', h.coord_shape hd]
    exact ⟨hstart, hle, hlimit⟩
  refine ⟨_, if_pos hok, ?_, fun idx hidx k hk => ?_⟩
  · rw [sliceAlong_size, h.set_shape]
  · have hlen : (idx.set d k).length = x.shape.length := by
      rw [length_set, length_of_mem_indices hidx, length_set, h.length_shape]
    change x.get _ = _
    rw [sliceAlong_source hlen hstart, coord_set_of_mem hd hidx, set_set]
    exact h.get_eq idx hidx _ (by omega)

theorem Along.slice_nat (start limit : Int) (a m : Nat) (hd : d < shape.length) (hstart : start = a)
    (hlimit : limit = a + m) (hle : a + m ≤ n) :
    ∃ y, Tensor.slice (sliceAlong d start limit x.shape) x = some y ∧
      Along d shape m (fun idx k => f idx (a + k)) y := by
  subst hstart hlimit
  have hsize : ((a : Int) + m - a).toNat = m := by omega
  have hslice := h.slice a (a + m) hd (by omega) (by omega) (by omega)
  rwa [hsize] at hslice

theorem Along.slice_start (limit : Int) (m : Nat) (hd : d < shape.length) (hlimit : limit = m) (hle : m ≤ n) :
    ∃ y, Tensor.slice (sliceAlong d 0 limit x.shape) x = some y ∧ Along d shape m f y := by
  obtain ⟨y, hy, halong⟩ := h.slice_nat 0 limit 0 m hd rfl (by omega) (by omega)
  refine ⟨y, hy, halong.congr fun idx _ k _ => ?_⟩
  rw [zero_add]

end

end

/-! ### Padding -/

def padAlong (rank d : Nat) (low high : Int) : List PadDim :=
  (List.replicate rank ⟨0, 0, 0⟩).set d ⟨low, high, 0⟩

section

variable {d n low high k : Nat} {shape idx : List Nat}

theorem PadDim.source_none {n i : Nat} (hi : i < n) : PadDim.source ⟨0, 0, 0⟩ n i = some i := by
  simp [PadDim.source, hi]

theorem PadDim.source_low (low high n i : Nat) : PadDim.source ⟨low, high, 0⟩ n i =
    if low ≤ i ∧ i - low < n then some (i - low) else none := by
  have hdvd : ((0 : Int) + 1) ∣ i - low := ⟨i - low, by omega⟩
  have hquot : ((i : Int) - low) / (0 + 1) = i - low := Int.ediv_one _
  simp only [PadDim.source, hdvd, true_and, hquot]
  by_cases hin : low ≤ i ∧ i - low < n
  · rw [if_pos hin, if_pos (by omega)]
    congr 1
    omega
  · rw [if_neg hin, if_neg (by omega)]

theorem allSome_source_none (hidx : idx ∈ indices shape) :
    allSome (zipWith3 (fun (d : PadDim) n (q : Nat) => d.source n q)
      (replicate shape.length ⟨0, 0, 0⟩) shape idx) = some idx := by
  induction shape generalizing idx with
  | nil =>
    obtain rfl := mem_indices_nil.mp hidx
    rfl
  | cons n shape ih =>
    obtain ⟨i, hi, rest, hrest, rfl⟩ := mem_indices_cons.mp hidx
    rw [length_cons, replicate_succ, zipWith3, PadDim.source_none hi, allSome, ih hrest, map_some]

theorem allSome_padAlong (hd : d < shape.length) (hidx : idx ∈ indices (shape.set d 1)) :
    allSome (zipWith3 (fun (d : PadDim) n (q : Nat) => d.source n q)
      (padAlong shape.length d low high) (shape.set d n) (idx.set d k)) =
      if low ≤ k ∧ k - low < n then some (idx.set d (k - low)) else none := by
  rw [padAlong]
  induction shape generalizing d idx with
  | nil => cases hd
  | cons m shape ih =>
    rw [length_cons, replicate_succ]
    cases d with
    | zero =>
      obtain ⟨i, hi, rest, hrest, rfl⟩ := mem_indices_cons.mp hidx
      rw [set_cons_zero, set_cons_zero, set_cons_zero, zipWith3]
      rw [PadDim.source_low]
      split
      · rw [allSome, allSome_source_none hrest, map_some, set_cons_zero]
      · rw [allSome]
    | succ d =>
      obtain ⟨i, hi, rest, hrest, rfl⟩ := mem_indices_cons.mp hidx
      rw [set_cons_succ, set_cons_succ, set_cons_succ, zipWith3,
        PadDim.source_none hi, allSome, ih (Nat.lt_of_succ_lt_succ hd) hrest]
      split
      · rw [map_some, set_cons_succ]
      · rw [map_none]

theorem Along.pad {f : List Nat → Nat → α} {x : Tensor α} (h : Along d shape n f x)
    (hd : d < shape.length) (low high : Nat) (v : α) :
    ∃ y, Tensor.pad (padAlong x.shape.length d low high) v x = some y ∧ Along d shape (low + n + high)
        (fun idx k => if low ≤ k ∧ k - low < n then f idx (k - low) else v) y := by
  have hlen := h.length_shape
  have hok : Forall₂ PadDim.Ok (padAlong x.shape.length d low high) x.shape := by
    rw [forall₂_iff_get]
    refine ⟨by simp [padAlong], fun i hi hi' => ?_⟩
    simp only [get_eq_getElem, padAlong, getElem_set, getElem_replicate]
    split
    · exact ⟨Int.le_refl 0, by simp only [PadDim.size, PadDim.dilated]; omega⟩
    · exact ⟨Int.le_refl 0, by simp only [PadDim.size, PadDim.dilated]; omega⟩
  refine ⟨_, if_pos hok, ?_, fun idx hidx k hk => ?_⟩
  · refine ext_getElem (by simp [padAlong, hlen]) fun i hi hi' => ?_
    rw [length_set] at hi'
    simp only [getElem_zipWith, padAlong, getElem_set, getElem_replicate, h.shape_eq]
    split
    · simp only [PadDim.size, PadDim.dilated]
      omega
    · simp only [PadDim.size, PadDim.dilated]
      omega
  · change ((allSome (zipWith3 _ _ _ (idx.set d k))).map x.get).getD v = _
    rw [h.length_shape, h.shape_eq, allSome_padAlong hd hidx]
    split
    · rename_i hin
      exact h.get_eq idx hidx _ hin.2
    · rfl

end

/-! ### Concatenations -/

/-- The first `n` elements of `f`, then those of `g`. -/
def appendLine (n : Nat) (f g : List Nat → Nat → α) (idx : List Nat) (k : Nat) : α :=
  if k < n then f idx k else g idx (k - n)

namespace Along

variable {d n m : Nat} {shape : List Nat} {f g : List Nat → Nat → α} {x y : Tensor α}

theorem concatenate_one (h : Along d shape n f x) (hd : d < shape.length) :
    ∃ y, concatenate d [x] = some y ∧ Along d shape n f y := by
  have hd' : d < x.shape.length := by rwa [h.length_shape]
  refine ⟨_, if_pos ⟨hd', nofun⟩, ?_, h.get_eq⟩
  change x.shape.set d (coord x.shape d + 0) = _
  rw [add_zero, set_coord_self hd', h.shape_eq]

theorem concatenate_cons (hd : d < shape.length) (h : Along d shape n f x) {x' : Tensor α} {xs : List (Tensor α)}
    (hxs : concatenate d (x' :: xs) = some y) (h' : Along d shape m g y) (hx' : x'.shape.set d 0 = shape.set d 0) :
    ∃ z, concatenate d (x :: x' :: xs) = some z ∧ Along d shape (n + m) (appendLine n f g) z := by
  have hd' : d < x.shape.length := by rwa [h.length_shape]
  rw [concatenate] at hxs
  split at hxs
  · rename_i hok
    cases hxs
    have hx : x.shape.set d 0 = shape.set d 0 := h.set_shape
    have hok' : ConcatenateOk d ((x :: x' :: xs).map Tensor.shape) := by
      refine ⟨hd', forall_mem_cons.mpr ⟨hx'.trans hx.symm, fun s hs => ?_⟩⟩
      rw [hx, ← hx']
      exact hok.2 s hs
    have hsum : (((x' :: xs).map Tensor.shape).map (coord · d)).sum = m := by
      have hshape := congrArg (coord · d) h'.shape_eq
      have hd'' : d < x'.shape.length := hok.1
      simp only [concatenateShape, map_cons, coord_set_self hd'', coord_set_self hd] at hshape
      exact hshape
    refine ⟨_, if_pos hok', ?_, fun idx hidx k hk => ?_⟩
    · change x.shape.set d (coord x.shape d + (((x' :: xs).map Tensor.shape).map (coord · d)).sum) = _
      rw [hsum, h.coord_shape hd, h.set_shape]
    · change concatenateGet d x (x' :: xs) (idx.set d k) = _
      rw [concatenateGet, coord_set_of_mem hd hidx, h.coord_shape hd, appendLine, set_set]
      by_cases hlt : k < n
      · rw [if_pos hlt, if_pos hlt, h.get_eq idx hidx k hlt]
      · rw [if_neg hlt, if_neg hlt]
        exact h'.get_eq idx hidx (k - n) (by omega)
  · cases hxs

theorem concatenate_two (hd : d < shape.length) (h : Along d shape n f x) (h' : Along d shape m g y) :
    ∃ z, concatenate d [x, y] = some z ∧ Along d shape (n + m) (appendLine n f g) z := by
  obtain ⟨y', hy', halong⟩ := h'.concatenate_one hd
  exact concatenate_cons hd h hy' halong h'.set_shape

/-- No operand or one. -/
inductive Optional (d : Nat) (shape : List Nat) : Nat → (List Nat → Nat → α) → List (Tensor α) → Prop
  | none (f : List Nat → Nat → α) : Optional d shape 0 f []
  | some {n : Nat} {f : List Nat → Nat → α} {x : Tensor α} (h : Along d shape n f x) :
    Optional d shape n f [x]

theorem concatenate_optional {l r : Nat} {f₀ f₁ : List Nat → Nat → α} {pre post : List (Tensor α)}
    (hd : d < shape.length) (hpre : Optional d shape l f₀ pre) (h : Along d shape n f x)
    (hpost : Optional d shape r f₁ post) :
    ∃ y, concatenate d (pre ++ x :: post) = some y ∧
      Along d shape (l + (n + r)) (appendLine l f₀ (appendLine n f f₁)) y := by
  have hright : ∃ y, concatenate d (x :: post) = some y ∧ Along d shape (n + r) (appendLine n f f₁) y := by
    cases hpost with
    | none =>
      obtain ⟨y, hy, halong⟩ := h.concatenate_one hd
      refine ⟨y, hy, halong.congr fun idx _ k hk => ?_⟩
      rw [appendLine, if_pos hk]
    | some hpost => exact concatenate_two hd h hpost
  obtain ⟨y, hy, halong⟩ := hright
  cases hpre with
  | none =>
    refine ⟨y, hy, ?_⟩
    rw [zero_add]
    refine halong.congr fun idx _ k _ => ?_
    simp [appendLine]
  | some hpre => exact concatenate_cons hd hpre hy halong h.set_shape

end Along

end Tensor
