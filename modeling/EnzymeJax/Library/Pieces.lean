import EnzymeJax.Library.Gather
import EnzymeJax.Library.UpdateLine

/-!
# Concatenations of many operands

The operands of a concatenation follow each other, so two lists of operands have the same concatenation if their
elements are the same one after another. An update of one region is one of that operand.
-/

namespace Tensor

open List Option

variable {α : Type*}

def total (d : Nat) (xs : List (Tensor α)) : Nat := (xs.map fun x => coord x.shape d).sum

/-- Element `k` of the operands, one after another, where the other coordinates are those of `idx`. -/
def piece (d : Nat) : List (Tensor α) → List Nat → Nat → Option α
  | [], _, _ => none
  | x :: xs, idx, k =>
    if k < coord x.shape d then some (x.get (idx.set d k)) else piece d xs idx (k - coord x.shape d)

/-- The operands have the shape but for dimension `d`. -/
def FitTogether (d : Nat) (shape : List Nat) (xs : List (Tensor α)) : Prop :=
  ∀ x ∈ xs, x.shape.set d 0 = shape.set d 0

/-- The lines of the tensor are those of the operands. -/
structure Pieces (d : Nat) (shape : List Nat) (xs : List (Tensor α)) (y : Tensor α) : Prop where
  shape_eq : y.shape = shape.set d (total d xs)
  get_eq : ∀ idx ∈ indices (shape.set d 1), ∀ k < total d xs, some (y.get (idx.set d k)) = piece d xs idx k

variable {x' : Tensor α} {start limit : Int} {dims : List SliceDim}

section

variable {d k : Nat} {shape idx : List Nat} {x y z : Tensor α} {xs ys : List (Tensor α)}

@[simp] theorem total_nil : total d ([] : List (Tensor α)) = 0 := rfl

@[simp] theorem total_cons : total d (x :: xs) = coord x.shape d + total d xs := by
  rw [total, total, map_cons, sum_cons]

theorem total_append : total d (xs ++ ys) = total d xs + total d ys := by
  rw [total, total, total, map_append, sum_append]

theorem piece_append : piece d (xs ++ ys) idx k =
    if k < total d xs then piece d xs idx k else piece d ys idx (k - total d xs) := by
  induction xs generalizing k with
  | nil => rfl
  | cons x xs ih =>
    rw [cons_append, piece, ih, piece, total_cons]
    by_cases hx : k < coord x.shape d
    · rw [if_pos hx, if_pos hx, if_pos (by omega)]
    · rw [if_neg hx, if_neg hx, Nat.sub_sub]
      exact if_congr (by omega) rfl rfl

theorem piece_set (j : Nat) : piece d xs (idx.set d j) k = piece d xs idx k := by
  induction xs generalizing k with
  | nil => rfl
  | cons x xs ih => rw [piece, piece, ih, set_set]

theorem fitTogether_append : FitTogether d shape (xs ++ ys) ↔
    FitTogether d shape xs ∧ FitTogether d shape ys := by
  simp only [FitTogether, mem_append, or_imp, forall_and]

theorem shape_eq_set (h : x.shape.set d 0 = shape.set d 0) : x.shape = shape.set d (coord x.shape d) := by
  by_cases hd : d < x.shape.length
  · have hset := congrArg (set · d (coord x.shape d)) h
    simp only [set_set] at hset
    rwa [set_coord_self hd] at hset
  · have hlen := congrArg length h
    rw [length_set, length_set] at hlen
    rw [set_eq_of_length_le (by omega), set_eq_of_length_le (by omega)] at h
    rw [set_eq_of_length_le (by omega), h]

theorem FitTogether.length_shape (h : FitTogether d shape xs) (hx : x ∈ xs) :
    x.shape.length = shape.length := by
  have hlen := congrArg length (h x hx)
  rwa [length_set, length_set] at hlen

theorem FitTogether.along (h : FitTogether d shape xs) (hx : x ∈ xs) :
    Along d shape (coord x.shape d) (fun idx k => x.get (idx.set d k)) x :=
  .of_shape (shape_eq_set (h x hx))

theorem Along.fits {n : Nat} {f : List Nat → Nat → α} (h : Along d shape n f x) :
    x.shape.set d 0 = shape.set d 0 := h.set_shape

theorem concatenateGet_eq_piece (hidx : d < idx.length) (hk : coord idx d < total d (x :: xs)) :
    some (concatenateGet d x xs idx) = piece d (x :: xs) idx (coord idx d) := by
  induction xs generalizing x idx with
  | nil =>
    rw [total_cons, total_nil, add_zero] at hk
    rw [concatenateGet, piece, if_pos hk, set_coord_self hidx]
  | cons x' xs ih =>
    rw [concatenateGet, piece]
    split
    · rw [set_coord_self hidx]
    · have hlen : d < (idx.set d (coord idx d - coord x.shape d)).length := by rwa [length_set]
      have hcoord : coord (idx.set d (coord idx d - coord x.shape d)) d =
          coord idx d - coord x.shape d := coord_set_self hidx _
      rw [ih hlen (by rw [hcoord]; rw [total_cons] at hk; omega), hcoord, piece_set]

theorem concatenate_pieces (hd : d < shape.length) (hne : xs ≠ []) (hxs : FitTogether d shape xs) :
    ∃ y, concatenate d xs = some y ∧ Pieces d shape xs y := by
  cases xs with
  | nil => exact absurd rfl hne
  | cons x xs =>
    have hx := hxs x mem_cons_self
    have hlen := hxs.length_shape mem_cons_self
    have hok : ConcatenateOk d ((x :: xs).map Tensor.shape) := by
      refine ⟨hlen.symm ▸ hd, fun s hs => ?_⟩
      obtain ⟨x', hx', rfl⟩ := mem_map.mp hs
      exact (hxs x' (mem_cons_of_mem _ hx')).trans hx.symm
    refine ⟨_, if_pos hok, ?_, fun idx hidx k hk => ?_⟩
    · change x.shape.set d (((x :: xs).map Tensor.shape).map (coord · d)).sum = _
      rw [List.map_map, shape_eq_set hx, set_set]
      rfl
    · have hcoord : coord (idx.set d k) d = k := coord_set_of_mem hd hidx
      have hidx' : d < (idx.set d k).length := by
        rw [length_set, length_of_mem_indices hidx, length_set]
        exact hd
      change some (concatenateGet d x xs (idx.set d k)) = _
      rw [concatenateGet_eq_piece hidx' (hcoord.symm ▸ hk), hcoord, piece_set]

theorem Pieces.of_same (h : Pieces d shape xs x) (hsame : Same x y) : Pieces d shape xs y := by
  refine ⟨hsame.shape_eq.symm.trans h.shape_eq, fun idx hidx k hk => ?_⟩
  rw [← hsame.get_eq (idx.set d k) (h.shape_eq ▸ set_mem_indices hidx hk), h.get_eq idx hidx k hk]

theorem pieces_of_concatenate (h : concatenate d xs = some y) :
    d < y.shape.length ∧ xs ≠ [] ∧ FitTogether d y.shape xs ∧ Pieces d y.shape xs y := by
  cases xs with
  | nil => cases h
  | cons x xs =>
    have hsome := h
    rw [concatenate] at h
    split at h
    · rename_i hok
      have hshape : y.shape = x.shape.set d (((x :: xs).map Tensor.shape).map (coord · d)).sum := by
        rw [← some.inj h]
        rfl
      have hd : d < y.shape.length := by
        rw [hshape, length_set]
        exact hok.1
      have hfit : FitTogether d y.shape (x :: xs) := by
        intro x' hx'
        rw [hshape, set_set]
        cases hx' with
        | head => rfl
        | tail _ hx' => exact hok.2 _ (mem_map_of_mem hx')
      obtain ⟨y', hy', hpieces⟩ := concatenate_pieces hd (cons_ne_nil x xs) hfit
      cases hsome.symm.trans hy'
      exact ⟨hd, cons_ne_nil x xs, hfit, hpieces⟩
    · cases h

theorem concatenate_of_shapes (h : concatenate d xs = some y) (hys : ys.map Tensor.shape = xs.map Tensor.shape) :
    ∃ z, concatenate d ys = some z ∧ z.shape = y.shape := by
  cases xs with
  | nil => cases h
  | cons x xs =>
    cases ys with
    | nil => cases hys
    | cons x' ys =>
      rw [concatenate] at h
      split at h
      · rename_i hok
        rw [← hys] at hok
        refine ⟨_, if_pos hok, ?_⟩
        rw [← some.inj h]
        exact congrArg (concatenateShape d) hys
      · cases h

theorem Pieces.same (hd : d < shape.length) (hy : Pieces d shape xs y) (hz : Pieces d shape ys z)
    (htotal : total d xs = total d ys)
    (hget : ∀ idx ∈ indices (shape.set d 1), ∀ k < total d xs, piece d xs idx k = piece d ys idx k) : Same y z := by
  refine ⟨by rw [hy.shape_eq, hz.shape_eq, htotal], fun idx hidx => ?_⟩
  rw [hy.shape_eq] at hidx
  obtain ⟨hbase, hk, heq⟩ := exists_line hd hidx
  have hread := hget _ hbase _ hk
  rw [← hy.get_eq _ hbase _ hk, ← hz.get_eq _ hbase _ (htotal ▸ hk), ← heq] at hread
  exact some.inj hread

theorem total_congr (h : Forall₂ Same xs ys) : total d xs = total d ys := by
  induction h with
  | nil => rfl
  | cons hxy _ ih => rw [total_cons, total_cons, hxy.shape_eq, ih]

theorem piece_congr (h : Forall₂ Same xs ys) (hxs : FitTogether d shape xs)
    (hidx : idx ∈ indices (shape.set d 1)) : piece d xs idx k = piece d ys idx k := by
  induction h generalizing k with
  | nil => rfl
  | cons hxy _ ih =>
    rw [piece, piece, hxy.shape_eq, ih fun t ht => hxs t (mem_cons_of_mem _ ht)]
    split
    · rename_i hk
      refine congrArg some (hxy.get_eq _ ?_)
      rw [shape_eq_set (hxs _ mem_cons_self), hxy.shape_eq]
      exact set_mem_indices hidx hk
    · rfl

theorem concatenate_congr (h : Forall₂ Same xs ys) (hy : concatenate d xs = some y) :
    ∃ z, concatenate d ys = some z ∧ Same z y := by
  obtain ⟨hd, hne, hfits, hpieces⟩ := pieces_of_concatenate hy
  have hfits' : FitTogether d y.shape ys := by
    intro t ht
    obtain ⟨i, hi, rfl⟩ := getElem_of_mem ht
    have hi' : i < xs.length := h.length_eq ▸ hi
    have hsame : Same xs[i] ys[i] := (forall₂_iff_get.mp h).2 i hi' hi
    rw [← hsame.shape_eq]
    exact hfits _ (getElem_mem hi')
  have hne' : ys ≠ [] := by
    intro hnil
    subst hnil
    exact hne (forall₂_nil_right_iff.mp h)
  obtain ⟨z, hz, hpieces'⟩ := concatenate_pieces hd hne' hfits'
  exact ⟨z, hz, (hpieces.same hd hpieces' (total_congr h) fun idx hidx k _ =>
    piece_congr h hfits hidx).symm⟩

theorem piece_middle (hlow : total d xs ≤ k) (hhigh : k < total d xs + coord x.shape d) :
    piece d (xs ++ x :: ys) idx k = some (x.get (idx.set d (k - total d xs))) := by
  rw [piece_append, if_neg (by omega), piece, if_pos (by omega)]

theorem piece_other (hsize : coord x.shape d = coord x'.shape d)
    (hout : k < total d xs ∨ total d xs + coord x.shape d ≤ k) :
    piece d (xs ++ x :: ys) idx k = piece d (xs ++ x' :: ys) idx k := by
  rw [piece_append, piece_append]
  split
  · rfl
  · rw [piece, piece, if_neg (by omega), if_neg (by omega), hsize]

end

theorem slice_of_shape {ds : List SliceDim} {x y : Tensor α} (h : slice ds x = some y)
    (hx : x'.shape = x.shape) : ∃ z, slice ds x' = some z ∧ z.shape = y.shape := by
  rw [slice] at h
  split at h
  · rename_i hok
    rw [← hx] at hok
    refine ⟨_, if_pos hok, ?_⟩
    rw [← some.inj h]
  · cases h

variable {x y : Tensor α}

theorem along_of_slice {d : Nat} (hd : d < x.shape.length) (h : slice (sliceAlong d start limit x.shape) x = some y) :
    0 ≤ start ∧ start ≤ limit ∧ limit ≤ coord x.shape d ∧
      Along d x.shape (limit - start).toNat (fun idx k => x.get (idx.set d (start.toNat + k))) y := by
  have hok : Forall₂ SliceDim.Ok (sliceAlong d start limit x.shape) x.shape := by
    rw [slice] at h
    split at h
    · assumption
    · cases h
  obtain ⟨hstart, hle, hlimit⟩ := (sliceAlong_ok_iff hd).mp hok
  obtain ⟨y', hy', halong⟩ := (Along.self hd).slice start limit hd hstart hle hlimit
  cases h.symm.trans hy'
  exact ⟨hstart, hle, hlimit, halong⟩

theorem eq_sliceAlong {d : Nat} (h : slice dims x = some y) (hshape : y.shape.set d 0 = x.shape.set d 0)
    (hstride : ∀ i < x.shape.length, (dims.getD i ⟨0, 0, 1⟩).stride = 1) (hend : ∀ i < x.shape.length, i ≠ d →
      (dims.getD i ⟨0, 0, 1⟩).start = 0 ∨ (dims.getD i ⟨0, 0, 1⟩).limit = coord x.shape i) :
    dims = sliceAlong d (dims.getD d ⟨0, 0, 1⟩).start (dims.getD d ⟨0, 0, 1⟩).limit x.shape := by
  obtain ⟨hok, hsome⟩ := ite_none_right_eq_some.mp h
  have hsize : y.shape = dims.map SliceDim.size := (congrArg Tensor.shape (some.inj hsome)).symm
  have hlen := hok.length_eq
  refine ext_getElem (by rw [sliceAlong, length_mapIdx, hlen]) fun i hi hi' => ?_
  have hi'' : i < x.shape.length := hlen ▸ hi
  have hget : dims.getD i ⟨0, 0, 1⟩ = dims[i] := getD_eq_getElem _ _ hi
  rw [sliceAlong_getElem _ hi'']
  have hs := hstride i hi''
  by_cases hd : i = d
  · rw [if_pos hd, ← hd, hget]
    rw [hget] at hs
    exact congrArg (SliceDim.mk _ _) hs
  · rw [if_neg hd]
    have hcoord := congrArg (coord · i) hshape
    have he := hend i hi'' hd
    have hbounds : dims[i].Ok x.shape[i] := (forall₂_iff_get.mp hok).2 i hi hi''
    simp only [coord_set_of_ne hd] at hcoord
    rw [hsize, coord_eq_getElem (by rwa [length_map]), coord_eq_getElem hi'', getElem_map, SliceDim.size] at hcoord
    rw [hget] at hs he
    rw [coord_eq_getElem hi''] at he
    obtain ⟨hstart, hle, hlimit, -⟩ := hbounds
    rw [hs] at hcoord
    have hstart' : dims[i].start = 0 := by omega
    have hlimit' : dims[i].limit = x.shape[i] := by omega
    generalize dims[i] = s at *
    obtain ⟨start, limit, stride⟩ := s
    simp only at hs hstart' hlimit'
    rw [hs, hstart', hlimit']

theorem shape_eq_of_slice {d : Nat} {shape : List Nat} (h : slice dims x = some y)
    (hfits : y.shape.set d 0 = shape.set d 0) (hshape : ∀ i < shape.length, coord x.shape i = coord shape i) :
    x.shape = shape := by
  obtain ⟨hok, hsome⟩ := ite_none_right_eq_some.mp h
  have hsize : y.shape.length = x.shape.length := by
    rw [← some.inj hsome, length_map, hok.length_eq]
  have hlen : y.shape.length = shape.length := by simpa using congrArg length hfits
  refine ext_getElem (hsize.symm.trans hlen) fun i hi hi' => ?_
  have hcoord := hshape i hi'
  rwa [coord_eq_getElem hi, coord_eq_getElem hi'] at hcoord

theorem piece_of_slice {d k : Nat} {idx : List Nat} (hd : d < x.shape.length)
    (h : slice (sliceAlong d start limit x.shape) x = some y) (hidx : idx ∈ indices (x.shape.set d 1))
    (hk : k < coord y.shape d) : piece d [y] idx k = some (x.get (idx.set d (start.toNat + k))) := by
  obtain ⟨-, -, -, halong⟩ := along_of_slice hd h
  rw [halong.coord_shape hd] at hk
  rw [piece, if_pos (by rwa [halong.coord_shape hd]), halong.get_eq idx hidx k hk]

theorem piece_of_end {d : Nat} {shape : List Nat} {x y z : Tensor α} (hd : d < shape.length)
    (h : slice dims x = some z) (hsame : Same z y) (hfits : y.shape.set d 0 = shape.set d 0)
    (hdims : ∀ i < shape.length, coord x.shape i = coord shape i ∧ (dims.getD i ⟨0, 0, 1⟩).stride = 1 ∧
      (i ≠ d → (dims.getD i ⟨0, 0, 1⟩).start = 0 ∨ (dims.getD i ⟨0, 0, 1⟩).limit = coord shape i)) :
    x.shape = shape ∧ 0 ≤ (dims.getD d ⟨0, 0, 1⟩).start ∧
      (dims.getD d ⟨0, 0, 1⟩).start + coord y.shape d = (dims.getD d ⟨0, 0, 1⟩).limit ∧
      ∀ idx ∈ indices (shape.set d 1), ∀ k < coord y.shape d,
        piece d [y] idx k = some (x.get (idx.set d ((dims.getD d ⟨0, 0, 1⟩).start.toNat + k))) := by
  rw [← hsame.shape_eq] at hfits
  obtain rfl := shape_eq_of_slice h hfits fun i hi => (hdims i hi).1
  have heq := eq_sliceAlong h hfits (fun i hi => (hdims i hi).2.1) fun i hi => (hdims i hi).2.2
  rw [heq] at h
  obtain ⟨hstart, hle, -, halong⟩ := along_of_slice hd h
  have hsize := halong.coord_shape hd
  refine ⟨rfl, hstart, ?_, fun idx hidx k hk => ?_⟩
  · rw [← hsame.shape_eq, hsize]
    omega
  · rw [← hsame.shape_eq] at hk
    rw [← piece_of_slice hd h hidx hk]
    exact (piece_congr (.cons hsame .nil) (fun t ht => by rw [mem_singleton.mp ht]; exact hfits) hidx).symm

/-! ### Updates along the dimension -/

section

variable {d n m : Nat} {shape sizes : List Nat} {ss : List Int} {a : Int} {f g : List Nat → Nat → α} {x u y : Tensor α}

theorem clampStarts_set_shape : zipWith3 clampStart (shape.set d n) sizes ss =
    (zipWith3 clampStart shape sizes ss).set d (clampStart n (coord sizes d) (ss.getD d 0)) := by
  induction shape generalizing d sizes ss with
  | nil => rfl
  | cons n' shape ih =>
    cases sizes with
    | nil => cases d <;> rfl
    | cons size sizes =>
      cases ss with
      | nil => cases d <;> rfl
      | cons start ss =>
        cases d with
        | zero => rfl
        | succ d =>
          rw [set_cons_succ, zipWith3, ih, zipWith3, set_cons_succ]
          rfl

instance (d : Nat) (starts sizes idx : List Nat) : Decidable (InRegionOff d starts sizes idx) :=
  inferInstanceAs (Decidable (∀ e < idx.length, e ≠ d → _ ∧ _))

/-- The lines of an update: those that the region has are overwritten from where it starts. -/
def updateLine (d c m : Nat) (starts sizes : List Nat) (f g : List Nat → Nat → α) (idx : List Nat)
    (k : Nat) : α :=
  if InRegionOff d starts sizes idx ∧ c ≤ k ∧ k < c + m then
    g ((List.zipWith (· - ·) idx starts).set d 0) (k - c)
  else f idx k

variable {starts idx : List Nat} {pre post : List (Tensor α)}

theorem inRegionOff_set {c k : Nat} :
    InRegionOff d (starts.set d c) sizes (idx.set d k) ↔ InRegionOff d starts sizes idx := by
  rw [InRegionOff, InRegionOff, length_set]
  refine forall₃_congr fun e _ hne => ?_
  rw [coord_set_of_ne hne, coord_set_of_ne hne]

theorem zipWith_sub_set_left {k v : Nat} :
    (List.zipWith (· - ·) (idx.set d k) starts).set d v = (List.zipWith (· - ·) idx starts).set d v := by
  refine ext_getElem (by simp) fun e he he' => ?_
  rw [getElem_set, getElem_set, getElem_zipWith, getElem_zipWith, getElem_set]
  split
  · rfl
  · rfl

theorem Along.update (hd : d < shape.length) (hsizes : sizes.length = shape.length)
    (hss : ss.length = shape.length) (hx : Along d shape n f x) (hu : Along d sizes m g u)
    (hfit : ∀ e < shape.length, e ≠ d → coord sizes e ≤ coord shape e) (hm : m ≤ n) :
    ∃ y, dynamicUpdateSlice (ss.set d a) u x = some y ∧ Along d shape n (fun idx k => updateLine d (clampStart n m a) m
        (zipWith3 clampStart shape sizes ss) sizes f g idx k) y := by
  have hlen := hx.length_shape
  have hd' : d < x.shape.length := hlen.symm ▸ hd
  obtain ⟨y, hy⟩ : ∃ y, dynamicUpdateSlice (ss.set d a) u x = some y := by
    refine ⟨_, if_pos ?_⟩
    rw [hu.shape_eq]
    refine (dynamicSliceOk_set hd' (hsizes.trans hlen.symm) (hss.trans hlen.symm) fun e he hne => ?_).mpr ?_
    · rw [hx.shape_eq, coord_set_of_ne hne]
      exact hfit e (hlen ▸ he) hne
    · rwa [hx.coord_shape hd]
  obtain ⟨hshape, hget⟩ := get_dynamicUpdateSlice hd' (hsizes.trans hlen.symm)
    (hss.trans hlen.symm) hu.shape_eq rfl rfl hy
  refine ⟨y, hy, hshape.trans hx.shape_eq, fun idx hidx k hk => ?_⟩
  have hmem : idx.set d k ∈ indices x.shape := by
    rw [hx.shape_eq]
    exact set_mem_indices hidx hk
  have hidxLength : idx.length = shape.length := by rw [length_of_mem_indices hidx, length_set]
  have hclamped := length_clampStarts hss hsizes
  obtain ⟨hin, hout⟩ := hget _ hmem
  rw [hx.shape_eq, clampStarts_set_shape, inRegionOff_set, coord_set_of_mem hd hidx, coord_set_self hd,
    zipWith_sub_set (by rw [length_set, hclamped, hidxLength]), set_set] at hin
  rw [hx.shape_eq, clampStarts_set_shape, inRegionOff_set] at hout
  rw [updateLine]
  by_cases hoff : InRegionOff d (zipWith3 clampStart shape sizes ss) sizes idx
  · rw [hin hoff]
    by_cases hregion : clampStart n m a ≤ k ∧ k < clampStart n m a + m
    · have hsub : (List.zipWith (· - ·) (idx.set d k) (List.zipWith3 clampStart shape sizes ss)).set d
          (k - clampStart n m a) = ((List.zipWith (· - ·) idx
            (zipWith3 clampStart shape sizes ss)).set d 0).set d (k - clampStart n m a) := by
        rw [zipWith_sub_set_left, set_set]
      rw [if_pos hregion, if_pos ⟨hoff, hregion⟩, hsub]
      exact hu.get_eq _ (sub_mem_indices_set (hclamped.trans hidxLength.symm)
        (hsizes.trans hidxLength.symm) hoff) _ (by omega)
    · rw [if_neg hregion, if_neg fun h => hregion h.2]
      exact hx.get_eq idx hidx k hk
  · rw [hout hoff, if_neg fun h => hoff h.1]
    exact hx.get_eq idx hidx k hk

theorem dynamicUpdateSlice_of_shape {u' : Tensor α} (h : dynamicUpdateSlice ss u x = some y) (hu : u'.shape = u.shape)
    (hx : x'.shape = x.shape) : ∃ z, dynamicUpdateSlice ss u' x' = some z ∧ z.shape = y.shape := by
  rw [dynamicUpdateSlice] at h
  split at h
  · rename_i hok
    rw [← hu, ← hx] at hok
    refine ⟨_, if_pos hok, ?_⟩
    rw [← some.inj h]
    exact hx
  · cases h

theorem dynamicUpdateSlice_empty (hempty : 0 ∈ u.shape) (h : dynamicUpdateSlice ss u x = some y) :
    Same y x := by
  rw [dynamicUpdateSlice] at h
  split at h
  · rename_i hok
    cases h
    refine ⟨rfl, fun idx hidx => ?_⟩
    have hlen := length_of_mem_indices hidx
    have hclamped := length_clampStarts hok.1 hok.2.length_eq
    obtain ⟨e, he, hzero⟩ := getElem_of_mem hempty
    have hout : ¬InRegion (zipWith3 clampStart x.shape u.shape ss) u.shape idx := by
      intro hin
      have hlt := (hin e (hlen.symm ▸ hok.2.length_eq ▸ he)).2
      rw [coord_eq_getElem he, hzero] at hlt
      exact absurd hlt (Nat.not_lt_zero _)
    change ((regionIndex _ _ idx).map u.get).getD (x.get idx) = _
    rw [regionIndex_of_not_inRegion (hclamped.trans hlen.symm) (hok.2.length_eq.trans hlen.symm) hout]
    rfl
  · cases h

theorem get_of_updated (hpos : 0 ∉ u.shape) (h : dynamicUpdateSlice ss u x = some y) :
    zipWith3 clampStart x.shape u.shape ss ∈ indices x.shape ∧
      ∃ idx, y.get (zipWith3 clampStart x.shape u.shape ss) = u.get idx := by
  rw [dynamicUpdateSlice] at h
  split at h
  · rename_i hok
    cases h
    have hclamped := length_clampStarts hok.1 hok.2.length_eq
    have hsize : ∀ e < x.shape.length, 0 < coord u.shape e := by
      intro e he
      have he' : e < u.shape.length := hok.2.length_eq.symm ▸ he
      rw [coord_eq_getElem he']
      exact pos_of_ne_zero fun hzero => hpos (hzero ▸ getElem_mem he')
    refine ⟨mem_indices_iff.mpr ⟨hclamped, fun e he => ?_⟩,
      List.zipWith (· - ·) (List.zipWith3 clampStart x.shape u.shape ss)
        (zipWith3 clampStart x.shape u.shape ss), ?_⟩
    · have hle := coord_clampStarts_add_le hok.2.length_eq hok.1 he (by
        rw [coord_eq_getElem he, coord_eq_getElem (hok.2.length_eq.symm ▸ he)]
        exact (forall₂_iff_get.mp hok.2).2 e (hok.2.length_eq.symm ▸ he) he)
      have hpos := hsize e he
      omega
    · have hin : InRegion (zipWith3 clampStart x.shape u.shape ss) u.shape
          (zipWith3 clampStart x.shape u.shape ss) := by
        intro e he
        rw [Nat.sub_self]
        exact ⟨le_refl _, hsize e (hclamped ▸ he)⟩
      change ((regionIndex _ _ _).map u.get).getD _ = _
      rw [regionIndex_of_inRegion rfl (hok.2.length_eq.trans hclamped.symm) hin]
      rfl
  · cases h

theorem update_concatenate {c : Nat} {z : Tensor α} (hy : concatenate d (pre ++ x :: post) = some y)
    (hz : dynamicUpdateSlice (ss.set d c) u y = some z) (hlow : total d pre ≤ c)
    (hhigh : c + coord u.shape d ≤ total d pre + coord x.shape d) :
    ∃ x', dynamicUpdateSlice (ss.set d ((c - total d pre : Nat) : Int)) u x = some x' ∧
      ∃ w, concatenate d (pre ++ x' :: post) = some w ∧ Same w z := by
  obtain ⟨hd, -, hfits, hpieces⟩ := pieces_of_concatenate hy
  have hok : DynamicSliceOk y.shape u.shape (ss.set d (c : Int)).length := by
    rw [dynamicUpdateSlice] at hz
    split at hz
    · assumption
    · cases hz
  have hss : ss.length = y.shape.length := by rw [← hok.1, length_set]
  have hsizes := hok.2.length_eq
  have hle : ∀ e < y.shape.length, e ≠ d → coord u.shape e ≤ coord y.shape e := by
    intro e he _
    rw [coord_eq_getElem he, coord_eq_getElem (hsizes.symm ▸ he)]
    exact (forall₂_iff_get.mp hok.2).2 e (hsizes.symm ▸ he) he
  have hsize : coord y.shape d = total d (pre ++ x :: post) := by
    have hcoord := congrArg (coord · d) hpieces.shape_eq
    rwa [coord_set_self hd] at hcoord
  have hxalong := hfits.along (mem_append_right pre mem_cons_self)
  obtain ⟨hpre, hrest⟩ := fitTogether_append.mp hfits
  have hualong := Along.self (hsizes.symm ▸ hd)
  have hyalong := Along.self hd
  rw [hsize, total_append, total_cons] at hyalong
  obtain ⟨z', hz', hzalong⟩ := Along.update (a := (c : Int)) hd hsizes hss hyalong hualong hle (by omega)
  cases hz.symm.trans hz'
  obtain ⟨x', hx', hx'along⟩ := Along.update (a := ((c - total d pre : Nat) : Int)) hd hsizes hss hxalong
    hualong hle (by omega)
  have hx'size : coord x.shape d = coord x'.shape d := (hx'along.coord_shape hd).symm
  have hfits' : FitTogether d y.shape (pre ++ x' :: post) := by
    refine fitTogether_append.mpr ⟨hpre, fun t ht => ?_⟩
    cases ht with
    | head => exact hx'along.fits
    | tail _ ht => exact hrest t (mem_cons_of_mem _ ht)
  obtain ⟨w, hw, hwpieces⟩ := concatenate_pieces hd (by simp) hfits'
  refine ⟨x', hx', w, hw, ?_, fun idx hidx => ?_⟩
  · rw [hwpieces.shape_eq, hzalong.shape_eq, total_append, total_cons, hx'size]
  · rw [hwpieces.shape_eq] at hidx
    obtain ⟨hbase, hk, heq⟩ := exists_line hd hidx
    have hread := hwpieces.get_eq _ hbase _ hk
    rw [total_append, total_cons, ← hx'size] at hk
    have hzread := hzalong.get_eq _ hbase _ hk
    have hyread := hpieces.get_eq _ hbase (coord idx d) (by rwa [total_append, total_cons])
    have hc : clampStart (coord x.shape d) (coord u.shape d) ((c - total d pre : Nat) : Int) =
        c - total d pre := clampStart_eq _ (by omega)
    have hc' : clampStart (total d pre + (coord x.shape d + total d post)) (coord u.shape d) c = c :=
      clampStart_eq _ (by omega)
    rw [hc'] at hzread
    rw [hc] at hx'along
    rw [← heq] at hread hzread hyread
    rw [hzread, ← some_inj, hread]
    by_cases hin : total d pre ≤ coord idx d ∧ coord idx d < total d pre + coord x.shape d
    · rw [piece_middle hin.1 (hx'size ▸ hin.2), hx'along.get_eq _ hbase _ (by omega)]
      rw [piece_middle hin.1 hin.2] at hyread
      have hregion : c - total d pre ≤ coord idx d - total d pre ∧
          coord idx d - total d pre < c - total d pre + coord u.shape d ↔
            c ≤ coord idx d ∧ coord idx d < c + coord u.shape d := by omega
      have hpos : coord idx d - total d pre - (c - total d pre) = coord idx d - c := by omega
      rw [updateLine, updateLine]
      refine congrArg some (if_congr (and_congr_right' hregion) (by rw [hpos]) ?_)
      rw [← heq]
      exact (some.inj hyread).symm
    · rw [← piece_other hx'size (by omega), ← hyread, updateLine, if_neg (by omega), ← heq]

theorem pieces_one (h : x.shape.set d 0 = shape.set d 0) : Pieces d shape [x] x := by
  refine ⟨?_, fun idx _ k hk => ?_⟩
  · rw [total_cons, total_nil, add_zero]
    exact shape_eq_set h
  · rw [total_cons, total_nil, add_zero] at hk
    rw [piece, if_pos hk]

theorem update_of_concatenate {mid : List (Tensor α)} {t : Tensor α}
    (h : concatenate d (pre ++ (mid ++ post)) = some y) (ht : Pieces d y.shape mid t) (hx : x.shape = y.shape)
    (hpre : ∀ idx ∈ indices (y.shape.set d 1), ∀ k < total d pre, piece d pre idx k = some (x.get (idx.set d k)))
    (hpost : ∀ idx ∈ indices (y.shape.set d 1), ∀ k < total d post,
      piece d post idx k = some (x.get (idx.set d (total d pre + total d mid + k)))) :
    ∃ z, dynamicUpdateSlice ((replicate y.shape.length 0).set d (total d pre)) t x = some z ∧ Same z y := by
  obtain ⟨hd, -, -, hpieces⟩ := pieces_of_concatenate h
  have hsize : coord y.shape d = total d pre + (total d mid + total d post) := by
    have hcoord := congrArg (coord · d) hpieces.shape_eq
    rwa [coord_set_self hd, total_append, total_append] at hcoord
  have halong : Along d y.shape (coord y.shape d) (fun idx k => x.get (idx.set d k)) x :=
    .of_shape (hx.trans (set_coord_self hd).symm)
  have htalong : Along d y.shape (total d mid) (fun idx k => t.get (idx.set d k)) t := .of_shape ht.shape_eq
  obtain ⟨z, hz, hzalong⟩ := Along.update (a := (total d pre : Int)) hd rfl length_replicate halong htalong
    (fun _ _ _ => le_refl _) (by omega)
  refine ⟨z, hz, hzalong.same hd ((Along.self hd).congr fun idx hidx k hk => ?_)⟩
  have hlen : idx.length = y.shape.length := by rw [length_of_mem_indices hidx, length_set]
  have hzero : List.zipWith (· - ·) idx (replicate y.shape.length 0) = idx := by
    refine ext_getElem (by simp [hlen]) fun e he he' => ?_
    rw [getElem_zipWith, getElem_replicate, Nat.sub_zero]
  have hoff : InRegionOff d (replicate y.shape.length 0) y.shape idx := by
    intro e he hne
    have hlt := (mem_indices_iff.mp hidx).2 e (by rwa [length_set, ← hlen])
    rw [coord_set_of_ne hne] at hlt
    rw [coord_eq_getElem (by rwa [length_replicate, ← hlen]), getElem_replicate]
    exact ⟨Nat.zero_le _, hlt⟩
  have hclamp : clampStart (coord y.shape d) (total d mid) (total d pre) = total d pre := clampStart_eq _ (by omega)
  have hread := hpieces.get_eq idx hidx k (by rw [total_append, total_append]; omega)
  rw [updateLine, clampStarts_zero, hzero, hclamp, ← some_inj, hread, piece_append]
  by_cases hbefore : k < total d pre
  · rw [if_pos hbefore, if_neg fun hin => absurd hin.2.1 (Nat.not_le.mpr hbefore)]
    exact hpre idx hidx k hbefore
  · rw [if_neg hbefore, piece_append]
    by_cases hinside : k - total d pre < total d mid
    · rw [if_pos hinside, if_pos ⟨hoff, by omega, by omega⟩, ← ht.get_eq idx hidx _ hinside, set_set]
    · rw [if_neg hinside, if_neg fun hin => hinside (by omega), hpost idx hidx _ (by omega)]
      congr 3
      omega

end

end Tensor
