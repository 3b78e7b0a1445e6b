import EnzymeJax.Library.Permuted
import EnzymeJax.Library.Pieces

/-!
# Tensors beside each other

A tensor may be made of a left and a right part along one dimension. Where every operand of a concatenation
is, and the concatenation is along another dimension, the result is made of the concatenations of the parts.
-/

namespace Tensor

open List Option Function

variable {α : Type*}

/-- The element at the coordinates of the operands one after another. -/
def pieceAt (d : Nat) : List (Tensor α) → (Nat → Nat) → Option α
  | [], _ => none
  | x :: xs, c => if c d < coord x.shape d then some (x.read c)
    else pieceAt d xs (Function.update c d (c d - coord x.shape d))

/-- The first `a` positions of `z` along dimension `n` are those of `x`, and the others are those of `y`. -/
structure Beside (n a : Nat) (x y z : Tensor α) : Prop where
  lt : n < z.shape.length
  le : a ≤ coord z.shape n
  left_shape : x.shape = z.shape.set n a
  right_shape : y.shape = z.shape.set n (coord z.shape n - a)
  read_eq : ∀ c, Within z.shape c → z.read c = if c n < a then x.read c else y.read (Function.update c n (c n - a))

section

variable {d n o a k : Nat} {c : Nat → Nat} {shape idx : List Nat} {x y z : Tensor α} {xs ys zs : List (Tensor α)}

theorem within_set {m : Nat} (hd : d < shape.length) (hc : Within shape c) (hk : k < m) :
    Within (shape.set d m) (update c d k) := by
  intro e he
  rw [length_set] at he
  by_cases hed : e = d
  · rw [hed, coord_set_self hd, update_self]
    exact hk
  · rw [coord_set_of_ne hed, update_of_ne hed]
    exact hc e he

theorem map_update (c : Nat → Nat) (k n d : Nat) : (range n).map (update c d k) = ((range n).map c).set d k := by
  refine ext_getElem (by simp) fun e he he' => ?_
  rw [getElem_map, getElem_range, getElem_set, update_apply, getElem_map, getElem_range]
  exact if_congr ⟨Eq.symm, Eq.symm⟩ rfl rfl

theorem piece_eq_pieceAt (hxs : ∀ x ∈ xs, x.shape.length = n) :
    piece d xs ((range n).map c) (c d) = pieceAt d xs c := by
  induction xs generalizing c with
  | nil => rfl
  | cons x xs ih =>
    rw [piece, pieceAt]
    split
    · rename_i hlt
      rw [read, hxs x mem_cons_self, ← map_update, update_eq_self]
    · rw [← ih fun x' hx' => hxs x' (mem_cons_of_mem _ hx'), map_update, piece_set, update_self]

theorem read_concatenate (h : concatenate d xs = some y) (hc : Within y.shape c) :
    some (y.read c) = pieceAt d xs c := by
  obtain ⟨hd, -, hfits, hpieces⟩ := pieces_of_concatenate h
  have hidx := hc.mem_indices
  have hshape := hpieces.shape_eq
  rw [hshape, length_set] at hidx
  obtain ⟨hbase, hk, heq⟩ := exists_line hd hidx
  have hcoord : coord ((range y.shape.length).map c) d = c d := coord_map_range _ hd
  have hget := hpieces.get_eq _ hbase _ hk
  rwa [← heq, piece_set, hcoord, piece_eq_pieceAt fun x hx => hfits.length_shape hx] at hget

theorem pieceAt_append : pieceAt d (xs ++ ys) c = if c d < total d xs then pieceAt d xs c
    else pieceAt d ys (update c d (c d - total d xs)) := by
  induction xs generalizing c with
  | nil => exact congrArg (pieceAt d ys) (update_eq_self d c).symm
  | cons x xs ih =>
    rw [cons_append, pieceAt, ih, pieceAt, total_cons, update_self]
    by_cases hx : c d < coord x.shape d
    · rw [if_pos hx, if_pos hx, if_pos (by omega)]
    · rw [if_neg hx, if_neg hx, Nat.sub_sub, update_idem]
      exact if_congr (by omega) rfl rfl

theorem coord_concatenate (h : concatenate d xs = some y) : coord y.shape d = total d xs := by
  obtain ⟨hd, -, -, hpieces⟩ := pieces_of_concatenate h
  have hcoord := congrArg (coord · d) hpieces.shape_eq
  rwa [coord_set_self hd] at hcoord

theorem beside_append (h : concatenate d (xs ++ ys) = some z) (hx : xs ≠ []) (hy : ys ≠ []) :
    ∃ x y, concatenate d xs = some x ∧ concatenate d ys = some y ∧ Beside d (total d xs) x y z := by
  obtain ⟨hd, -, hfits, -⟩ := pieces_of_concatenate h
  obtain ⟨hxs, hys⟩ := fitTogether_append.mp hfits
  obtain ⟨x, hx, hxpieces⟩ := concatenate_pieces hd hx hxs
  obtain ⟨y, hy, hypieces⟩ := concatenate_pieces hd hy hys
  have htotal := coord_concatenate h
  rw [total_append] at htotal
  refine ⟨x, y, hx, hy, hd, by omega, hxpieces.shape_eq, ?_, fun c hc => ?_⟩
  · rw [hypieces.shape_eq, htotal, Nat.add_sub_cancel_left]
  · have hread := read_concatenate h hc
    rw [pieceAt_append] at hread
    have hcd := hc d hd
    split
    · rename_i hlt
      have hcx := within_set hd hc hlt
      rw [update_eq_self, ← hxpieces.shape_eq] at hcx
      rw [if_pos hlt, ← read_concatenate hx hcx] at hread
      exact some.inj hread
    · rename_i hge
      have hlt : c d - total d xs < total d ys := by omega
      have hcy := within_set hd hc hlt
      rw [← hypieces.shape_eq] at hcy
      rw [if_neg hge, ← read_concatenate hy hcy] at hread
      exact some.inj hread

theorem same_of_concatenate_one (h : concatenate d [x] = some y) : Same y x := by
  obtain ⟨hd, -, hfits, hpieces⟩ := pieces_of_concatenate h
  have hshape : y.shape = x.shape := by
    rw [shape_eq_set (hfits x mem_cons_self), hpieces.shape_eq, total_cons, total_nil, add_zero,
      set_set]
  refine same_of_read hshape fun c hc => ?_
  have hread := read_concatenate h hc
  rw [pieceAt, if_pos] at hread
  · exact some.inj hread
  · rw [← hshape]
    exact hc d hd

theorem beside_three (h : concatenate d (x :: (xs ++ [y])) = some z) (hxs : xs ≠ []) :
    ∃ x' w mid y', concatenate d xs = some mid ∧ Same x' x ∧ Same y' y ∧
      Beside d (coord x.shape d) x' w z ∧ Beside d (total d xs) mid y' w := by
  have hsplit : concatenate d ([x] ++ (xs ++ [y])) = some z := h
  obtain ⟨x', w, hx', hw, hbeside⟩ :=
    beside_append hsplit (cons_ne_nil _ _) (by simp)
  obtain ⟨mid, y', hmid, hy', hbeside'⟩ := beside_append hw hxs (cons_ne_nil _ _)
  rw [total_cons, total_nil, add_zero] at hbeside
  exact ⟨x', w, mid, y', hmid, same_of_concatenate_one hx', same_of_concatenate_one hy', hbeside, hbeside'⟩

/-! ### Concatenations along another dimension -/

section

variable (h : Beside n a x y z)

include h

theorem Beside.left_size (hno : o ≠ n) : coord x.shape o = coord z.shape o := by
  rw [h.left_shape, coord_set_of_ne hno]

theorem Beside.right_size (hno : o ≠ n) : coord y.shape o = coord z.shape o := by
  rw [h.right_shape, coord_set_of_ne hno]

theorem Beside.within_left (hc : Within z.shape c) (hlt : c n < a) :
    Within x.shape c := by
  have hcx := within_set h.lt hc hlt
  rwa [update_eq_self, ← h.left_shape] at hcx

theorem Beside.within_right (hc : Within z.shape c) (hge : ¬c n < a) :
    Within y.shape (update c n (c n - a)) := by
  have hlt : c n - a < coord z.shape n - a := by
    have hcn := hc n h.lt
    omega
  have hcy := within_set h.lt hc hlt
  rwa [← h.right_shape] at hcy

end

variable {ts : List (Tensor α × Tensor α × Tensor α)}

section

variable (hts : ∀ t ∈ ts, Beside n a t.1 t.2.1 t.2.2) (hno : o ≠ n)

include hts hno

theorem total_beside : total o (ts.map fun t => t.1) = total o (ts.map fun t => t.2.2) ∧
      total o (ts.map fun t => t.2.1) = total o (ts.map fun t => t.2.2) := by
  rw [total, total, total, List.map_map, List.map_map, List.map_map]
  exact ⟨congrArg sum (map_congr_left fun t ht => (hts t ht).left_size hno),
    congrArg sum (map_congr_left fun t ht => (hts t ht).right_size hno)⟩

theorem pieceAt_beside (hc : ∀ t ∈ ts, ∀ d < t.2.2.shape.length, d ≠ o → c d < coord t.2.2.shape d) :
    pieceAt o (ts.map fun t => t.2.2) c = if c n < a then pieceAt o (ts.map fun t => t.1) c
      else pieceAt o (ts.map fun t => t.2.1) (update c n (c n - a)) := by
  induction ts generalizing c with
  | nil => rw [map_nil, map_nil, map_nil, pieceAt, pieceAt, ite_self]
  | cons t ts ih =>
    have ht := hts t mem_cons_self
    have hct := hc t mem_cons_self
    rw [map_cons, map_cons, map_cons, pieceAt, pieceAt, pieceAt, ht.left_size hno, ht.right_size hno, update_of_ne hno]
    by_cases hlt : c o < coord t.2.2.shape o
    · rw [if_pos hlt, if_pos hlt, if_pos hlt, ht.read_eq c]
      · split
        · rfl
        · rfl
      · intro d hd
        by_cases hdo : d = o
        · rw [hdo]
          exact hlt
        · exact hct d hd hdo
    · rw [if_neg hlt, if_neg hlt, if_neg hlt, ih fun t' ht' => hts t' (mem_cons_of_mem _ ht')]
      · rw [update_of_ne (Ne.symm hno), update_comm hno]
      · intro t' ht' d hd hdo
        rw [update_of_ne hdo]
        exact hc t' (mem_cons_of_mem _ ht') d hd hdo

theorem beside_concatenate (h : concatenate o (ts.map fun t => t.2.2) = some z) :
    ∃ x y, concatenate o (ts.map fun t => t.1) = some x ∧
      concatenate o (ts.map fun t => t.2.1) = some y ∧ Beside n a x y z := by
  obtain ⟨ho, hne, hfits, hpieces⟩ := pieces_of_concatenate h
  have hne' : ts ≠ [] := fun hnil => hne (by rw [hnil, map_nil])
  have hfit : ∀ t ∈ ts, t.2.2.shape.set o 0 = z.shape.set o 0 := fun t ht =>
    hfits _ (mem_map_of_mem ht)
  have hsize : ∀ t ∈ ts, ∀ d ≠ o, coord t.2.2.shape d = coord z.shape d := by
    intro t ht d hdo
    have hcoord := congrArg (coord · d) (hfit t ht)
    rwa [coord_set_of_ne hdo, coord_set_of_ne hdo] at hcoord
  obtain ⟨htotal, htotal'⟩ := total_beside hts hno
  have hxs : FitTogether o (z.shape.set n a) (ts.map fun t => t.1) := by
    intro x hx
    obtain ⟨t, ht, rfl⟩ := mem_map.mp hx
    rw [(hts t ht).left_shape, set_comm _ _ hno.symm, hfit t ht, set_comm _ _ hno]
  have hys : FitTogether o (z.shape.set n (coord z.shape n - a)) (ts.map fun t => t.2.1) := by
    intro y hy
    obtain ⟨t, ht, rfl⟩ := mem_map.mp hy
    rw [(hts t ht).right_shape, set_comm _ _ hno.symm, hfit t ht, set_comm _ _ hno, hsize t ht n hno.symm]
  have hlen : ∀ m, o < (z.shape.set n m).length := by
    intro m
    rwa [length_set]
  obtain ⟨x, hx, hxpieces⟩ := concatenate_pieces (hlen _) (by simpa using hne') hxs
  obtain ⟨y, hy, hypieces⟩ := concatenate_pieces (hlen _) (by simpa using hne') hys
  obtain ⟨t, ht⟩ := exists_mem_of_ne_nil _ hne'
  have hn : n < z.shape.length := by
    rw [← hfits.length_shape (mem_map_of_mem ht)]
    exact (hts t ht).lt
  have htotalz := coord_concatenate h
  have hleft : x.shape = z.shape.set n a := by
    rw [hxpieces.shape_eq, htotal, ← htotalz, set_comm _ _ hno.symm, set_coord_self ho]
  have hright : y.shape = z.shape.set n (coord z.shape n - a) := by
    rw [hypieces.shape_eq, htotal', ← htotalz, set_comm _ _ hno.symm, set_coord_self ho]
  have hle : a ≤ coord z.shape n := by
    rw [← hsize t ht n hno.symm]
    exact (hts t ht).le
  refine ⟨x, y, hx, hy, hn, hle, hleft, hright, fun c hc => ?_⟩
  have hread := read_concatenate h hc
  rw [pieceAt_beside hts hno fun t ht d hd hdo => by
    rw [hsize t ht d hdo]
    exact hc d (by rwa [← hfits.length_shape (mem_map_of_mem ht)])] at hread
  have hcn := hc n hn
  split
  · rename_i hlt
    have hcx := within_set hn hc hlt
    rw [update_eq_self, ← hleft] at hcx
    rw [if_pos hlt, ← read_concatenate hx hcx] at hread
    exact some.inj hread
  · rename_i hge
    have hlt : c n - a < coord z.shape n - a := by omega
    have hcy := within_set hn hc hlt
    rw [← hright] at hcy
    rw [if_neg hge, ← read_concatenate hy hcy] at hread
    exact some.inj hread

end

/-! ### Slices one after another -/

/-- Coordinate `k` in dimension `o`, and what `φ` takes in the others. -/
def taken (o : Nat) (φ : Nat → Nat → Nat) (k : Nat) (c : Nat → Nat) : Nat → Nat :=
  fun d => if d = o then k else φ d (c d)

/-- The tensor has the elements of `x` that `φ` takes but for dimension `o`, where it is a slice. -/
structure TakenAlong (o : Nat) (φ : Nat → Nat → Nat) (x : Tensor α) (dim : SliceDim) (t : Tensor α) : Prop where
  size_eq : coord t.shape o = dim.size
  read_eq : ∀ c, Within t.shape c → t.read c = x.read (taken o φ (dim.source (c o)) c)

theorem TakenAlong.of_same {φ : Nat → Nat → Nat} {dim : SliceDim} {t t' : Tensor α}
    (h : TakenAlong o φ x dim t) (hsame : Same t' t) : TakenAlong o φ x dim t' :=
  ⟨by rw [hsame.shape_eq, h.size_eq], fun c hc => by
    rw [hsame.read_eq hc, h.read_eq c (hsame.shape_eq ▸ hc)]⟩

theorem TakenAlong.congr {φ ψ : Nat → Nat → Nat} {dim : SliceDim} {t : Tensor α} (h : TakenAlong o φ x dim t)
    (hφ : ∀ d < x.shape.length, d ≠ o → φ d = ψ d) : TakenAlong o ψ x dim t := by
  refine ⟨h.size_eq, fun c hc => ?_⟩
  rw [h.read_eq c hc]
  refine read_congr x fun d hd => ?_
  rw [taken, taken]
  split
  · rfl
  · rename_i hdo
    rw [hφ d hd hdo]

/-- The positions that slices take, one slice after another. -/
def positions (dims : List SliceDim) : List Nat :=
  dims.flatMap fun dim => (List.range dim.size).map dim.source

@[simp] theorem positions_cons (dim : SliceDim) (dims : List SliceDim) :
    positions (dim :: dims) = (range dim.size).map dim.source ++ positions dims := flatMap_cons

theorem length_positions (dims : List SliceDim) : (positions dims).length = (dims.map SliceDim.size).sum := by
  induction dims with
  | nil => rfl
  | cons dim dims ih =>
    rw [positions_cons, length_append, ih, length_map, length_range, map_cons, sum_cons]

variable {φ : Nat → Nat → Nat} {dims : List SliceDim} {ss : List (Tensor α)}

section

variable (o : Nat) (φ : Nat → Nat → Nat)

theorem taken_update (k j : Nat) (c : Nat → Nat) :
    taken o φ k (update c o j) = taken o φ k c := by
  funext d
  rw [taken, taken]
  split
  · rfl
  · rename_i hdo
    rw [update_of_ne hdo]

theorem update_taken (j k : Nat) (c : Nat → Nat) :
    update (taken o φ k c) o j = taken o φ j c := by
  funext d
  by_cases hd : d = o
  · rw [hd, update_self, taken, if_pos rfl]
  · rw [update_of_ne hd, taken, taken, if_neg hd, if_neg hd]

theorem taken_self (k : Nat) (c : Nat → Nat) : taken o φ k c o = k := if_pos rfl

end

theorem pieceAt_taken (h : Forall₂ (TakenAlong o φ x) dims ss)
    (hc : ∀ t ∈ ss, ∀ d < t.shape.length, d ≠ o → c d < coord t.shape d) :
    pieceAt o ss c = (positions dims)[c o]?.map fun k => x.read (taken o φ k c) := by
  induction h generalizing c with
  | nil => rfl
  | cons ht _ ih =>
    rename_i dim t dims ss hss
    have hct := hc t mem_cons_self
    rw [pieceAt, positions_cons, ht.size_eq]
    split
    · rename_i hlt
      rw [getElem?_append_left (by rwa [length_map, length_range]), getElem?_map, getElem?_range hlt, ht.read_eq c]
      · rfl
      · intro d hd
        by_cases hdo : d = o
        · rw [hdo, ht.size_eq]
          exact hlt
        · exact hct d hd hdo
    · rename_i hge
      rw [ih, update_self, getElem?_append_right (by simpa using hge), length_map, length_range]
      · simp only [taken_update]
      · intro t' ht' d hd hdo
        rw [update_of_ne hdo]
        exact hc t' (mem_cons_of_mem _ ht') d hd hdo

theorem read_concatenate_taken (h : Forall₂ (TakenAlong o φ x) dims ss) (hy : concatenate o ss = some y)
    (hc : Within y.shape c) : y.read c = x.read (taken o φ ((positions dims).getD (c o) 0) c) := by
  obtain ⟨ho, -, hfits, -⟩ := pieces_of_concatenate hy
  have hread := read_concatenate hy hc
  rw [pieceAt_taken h] at hread
  · obtain ⟨k, hk, heq⟩ := map_eq_some_iff.mp hread.symm
    rw [← heq, getD_eq_getElem?_getD, hk, getD_some]
  · intro t ht d hd hdo
    have hcoord := congrArg (coord · d) (hfits t ht)
    rw [coord_set_of_ne hdo, coord_set_of_ne hdo] at hcoord
    rw [hcoord]
    exact hc d (by rwa [← hfits.length_shape ht])

theorem read_sliceAlong {start limit : Int} (hd : d < x.shape.length)
    (h : slice (sliceAlong d start limit x.shape) x = some y) :
    0 ≤ start ∧ start ≤ limit ∧ limit ≤ coord x.shape d ∧
      y.shape = x.shape.set d (limit - start).toNat ∧ ∀ c, Within y.shape c →
        y.read c = x.read (update c d (start.toNat + c d)) := by
  obtain ⟨hstart, hle, hlimit, halong⟩ := along_of_slice hd h
  refine ⟨hstart, hle, hlimit, halong.shape_eq, fun c hc => ?_⟩
  have hidx := hc.mem_indices
  have hlen : y.shape.length = x.shape.length := halong.length_shape
  rw [halong.shape_eq, length_set] at hidx
  obtain ⟨hbase, hk, heq⟩ := exists_line hd hidx
  have hcoord : coord ((range x.shape.length).map c) d = c d := coord_map_range _ hd
  have hget := halong.get_eq _ hbase _ hk
  rw [← heq, hcoord, set_set] at hget
  rw [read, read, hlen, map_update]
  exact hget

end

/-! ### Operands with the same elements -/

theorem fitTogether_cons {d : Nat} {shape : List Nat} {x : Tensor α} {xs : List (Tensor α)} :
    FitTogether d shape (x :: xs) ↔ FitTogether d shape [x] ∧ FitTogether d shape xs := by
  rw [← fitTogether_append, singleton_append]

/-- The operands have the same elements one after another. -/
structure Lines (d : Nat) (shape : List Nat) (xs ys : List (Tensor α)) : Prop where
  fits_left : FitTogether d shape xs
  fits_right : FitTogether d shape ys
  total_eq : total d xs = total d ys
  pieceAt_eq : ∀ c, Within (shape.set d (total d xs)) c → pieceAt d xs c = pieceAt d ys c

namespace Lines

variable {d : Nat} {shape : List Nat} {x y z : Tensor α} {xs ys zs xs' ys' : List (Tensor α)}

theorem refl (h : FitTogether d shape xs) : Lines d shape xs xs := ⟨h, h, rfl, fun _ _ => rfl⟩

theorem symm (h : Lines d shape xs ys) : Lines d shape ys xs :=
  ⟨h.fits_right, h.fits_left, h.total_eq.symm, fun c hc => (h.pieceAt_eq c (h.total_eq ▸ hc)).symm⟩

theorem trans (h : Lines d shape xs ys) (h' : Lines d shape ys zs) : Lines d shape xs zs :=
  ⟨h.fits_left, h'.fits_right, h.total_eq.trans h'.total_eq,
    fun c hc => (h.pieceAt_eq c hc).trans (h'.pieceAt_eq c (h.total_eq ▸ hc))⟩

theorem of_shape {shape' : List Nat} (h : Lines d shape' xs ys) (hshape : shape'.set d 0 = shape.set d 0) :
    Lines d shape xs ys := by
  refine ⟨fun x hx => (h.fits_left x hx).trans hshape, fun x hx => (h.fits_right x hx).trans hshape,
    h.total_eq, fun c hc => h.pieceAt_eq c ?_⟩
  have hset := congrArg (set · d (total d xs)) hshape
  simp only [set_set] at hset
  rwa [hset]

theorem of_empty (hxs : FitTogether d shape xs) (hys : FitTogether d shape ys)
    (htotal : total d xs = total d ys) (hempty : 0 ∈ shape.set d 1) : Lines d shape xs ys := by
  refine ⟨hxs, hys, htotal, fun c hc => ?_⟩
  obtain ⟨e, he, hzero⟩ := getElem_of_mem hempty
  rw [length_set] at he
  have hed : e ≠ d := by
    rintro rfl
    rw [getElem_set_self] at hzero
    exact one_ne_zero hzero
  have hlt := hc e (by rwa [length_set])
  rw [coord_set_of_ne hed, coord_eq_getElem he] at hlt
  rw [getElem_set_ne (Ne.symm hed)] at hzero
  rw [hzero] at hlt
  exact absurd hlt (Nat.not_lt_zero _)

theorem append (hd : d < shape.length) (h : Lines d shape xs ys) (h' : Lines d shape xs' ys') :
    Lines d shape (xs ++ xs') (ys ++ ys') := by
  refine ⟨fitTogether_append.mpr ⟨h.fits_left, h'.fits_left⟩,
    fitTogether_append.mpr ⟨h.fits_right, h'.fits_right⟩, ?_, fun c hc => ?_⟩
  · rw [total_append, total_append, h.total_eq, h'.total_eq]
  · have hcd := hc d (by rwa [length_set])
    rw [coord_set_self hd, total_append] at hcd
    rw [pieceAt_append, pieceAt_append, ← h.total_eq]
    split
    · rename_i hlt
      have hc' := within_set (by rwa [length_set]) hc hlt
      rw [update_eq_self, set_set] at hc'
      exact h.pieceAt_eq c hc'
    · rename_i hge
      have hlt : c d - total d xs < total d xs' := by omega
      have hc' := within_set (by rwa [length_set]) hc hlt
      rw [set_set] at hc'
      exact h'.pieceAt_eq _ hc'

theorem cancel (hd : d < shape.length) (h : Lines d shape xs ys) (h' : Lines d shape (xs ++ xs') (ys ++ ys')) :
    Lines d shape xs' ys' := by
  have htotal := h'.total_eq
  rw [total_append, total_append, h.total_eq, Nat.add_left_cancel_iff] at htotal
  refine ⟨(fitTogether_append.mp h'.fits_left).2, (fitTogether_append.mp h'.fits_right).2, htotal, fun c hc => ?_⟩
  have hcd := hc d (by rwa [length_set])
  rw [coord_set_self hd] at hcd
  have hlt : total d xs + c d < total d (xs ++ xs') := by
    rw [total_append]
    omega
  have hc' := within_set (by rwa [length_set]) hc hlt
  rw [set_set] at hc'
  have hat := h'.pieceAt_eq _ hc'
  rwa [pieceAt_append, pieceAt_append, update_self, ← h.total_eq, if_neg (by omega),
    if_neg (by omega), Nat.add_sub_cancel_left, update_idem, update_eq_self] at hat

theorem of_same (hd : d < y.shape.length) (h : Same x y) : Lines d y.shape [y] [x] := by
  refine ⟨fun z hz => by rw [mem_singleton.mp hz], fun z hz => by
    rw [mem_singleton.mp hz, h.shape_eq], ?_, fun c hc => ?_⟩
  · rw [total_cons, total_cons, h.shape_eq]
  · rw [total_cons, total_nil, add_zero, set_coord_self hd] at hc
    rw [pieceAt, if_pos (hc d hd), pieceAt, h.shape_eq, if_pos (hc d hd), h.read_eq (h.shape_eq ▸ hc)]

theorem of_concatenate (h : concatenate d xs = some y) : Lines d y.shape [y] xs := by
  obtain ⟨hd, -, hfits, -⟩ := pieces_of_concatenate h
  have htotal := coord_concatenate h
  refine ⟨fun x hx => by rw [mem_singleton.mp hx], hfits, ?_, fun c hc => ?_⟩
  · rw [total_cons, total_nil, add_zero, htotal]
  · rw [total_cons, total_nil, add_zero, set_coord_self hd] at hc
    rw [pieceAt, if_pos (hc d hd), read_concatenate h hc]

theorem concatenate (h : Lines d y.shape xs ys) (hne : ys ≠ []) (hy : concatenate d xs = some y) :
    ∃ z, concatenate d ys = some z ∧ Same z y := by
  obtain ⟨hd, -, -, hpieces⟩ := pieces_of_concatenate hy
  obtain ⟨z, hz, hzpieces⟩ := concatenate_pieces hd hne h.fits_right
  have hshape : z.shape = y.shape := by
    rw [hzpieces.shape_eq, ← h.total_eq, ← hpieces.shape_eq]
  refine ⟨z, hz, same_of_read hshape fun c hc => ?_⟩
  have hzread := read_concatenate hz hc
  rw [hshape] at hc
  have hyread := read_concatenate hy hc
  rw [hpieces.shape_eq] at hc
  rw [h.pieceAt_eq c hc, ← hzread] at hyread
  exact (some.inj hyread).symm

theorem of_positions {φ : Nat → Nat → Nat} {dims dims' : List SliceDim} (hxs : Forall₂ (TakenAlong d φ x) dims xs)
    (hys : Forall₂ (TakenAlong d φ x) dims' ys) (hfits : FitTogether d shape xs) (hfits' : FitTogether d shape ys)
    (hpositions : positions dims = positions dims') : Lines d shape xs ys := by
  have htotal : ∀ {dims : List SliceDim} {ts : List (Tensor α)},
      Forall₂ (TakenAlong d φ x) dims ts → total d ts = (positions dims).length := by
    intro dims ts h
    induction h with
    | nil => rfl
    | cons ht _ ih => rw [total_cons, positions_cons, length_append, ih, ht.size_eq, length_map,
        length_range]
  have hother : ∀ {ts : List (Tensor α)} {m : Nat} {c : Nat → Nat}, FitTogether d shape ts →
      Within (shape.set d m) c → ∀ t ∈ ts, ∀ e < t.shape.length, e ≠ d → c e < coord t.shape e := by
    intro ts m c hts hc t ht e he hed
    have hlt := hc e (by rw [length_set, ← hts.length_shape ht]; exact he)
    have hcoord := congrArg (coord · e) (hts t ht)
    rw [coord_set_of_ne hed, coord_set_of_ne hed] at hcoord
    rwa [coord_set_of_ne hed, ← hcoord] at hlt
  refine ⟨hfits, hfits', by rw [htotal hxs, htotal hys, hpositions], fun c hc => ?_⟩
  rw [pieceAt_taken hxs (hother hfits hc), pieceAt_taken hys (hother hfits' hc), hpositions]

end Lines

/-! ### Positions of slices that follow each other -/

section

theorem size_le_iff {d : SliceDim} (hstride : 0 < d.stride) {n : Nat} :
    d.size ≤ n ↔ d.limit - d.start ≤ n * d.stride := by
  rw [SliceDim.size, Int.toNat_le]
  have hdiv := Int.ediv_lt_iff_lt_mul (a := d.limit - d.start + d.stride - 1) (b := n + 1) hstride
  rw [add_mul, one_mul] at hdiv
  omega

variable {a b c k : Int}

theorem size_of_dvd (hk : 0 < k) (hab : a ≤ b) (hdvd : k ∣ b - a) : (SliceDim.mk a b k).size * k = b - a := by
  obtain ⟨q, hq⟩ := hdvd
  have hq₀ : 0 ≤ q := by
    by_contra hneg
    have := Int.mul_neg_of_pos_of_neg hk (not_le.mp hneg)
    omega
  obtain ⟨n, rfl⟩ := Int.eq_ofNat_of_zero_le hq₀
  have hsize : (SliceDim.mk a b k).size = n := by
    refine eq_of_forall_ge_iff fun m => ?_
    rw [size_le_iff hk]
    change b - a ≤ m * k ↔ _
    rw [hq, mul_comm, mul_le_mul_iff_left₀ hk]
    exact Int.ofNat_le
  rw [hsize, hq, mul_comm]

theorem size_le_add (hk : 0 < k) : (SliceDim.mk a c k).size ≤ (SliceDim.mk a b k).size + (SliceDim.mk b c k).size := by
  have h₁ := (size_le_iff (d := ⟨a, b, k⟩) hk).mp le_rfl
  have h₂ := (size_le_iff (d := ⟨b, c, k⟩) hk).mp le_rfl
  rw [size_le_iff hk]
  push_cast
  rw [add_mul]
  simp only at h₁ h₂ ⊢
  omega

theorem size_tail (hk : 0 < k) {n : Nat} (hn : n ≤ (SliceDim.mk a c k).size) :
    (SliceDim.mk (a + ((SliceDim.mk a c k).size - n) * k) c k).size = n := by
  obtain ⟨r, hr⟩ := Nat.exists_eq_add_of_le hn
  refine eq_of_forall_ge_iff fun m => ?_
  have hmr := size_le_iff (d := ⟨a, c, k⟩) (n := m + r) hk
  rw [hr] at hmr ⊢
  rw [size_le_iff hk]
  change c - (a + (((n + r : Nat) : Int) - n) * k) ≤ m * k ↔ _
  push_cast at hmr ⊢
  rw [add_sub_cancel_left, ← sub_sub, sub_le_iff_le_add, ← add_mul]
  rw [← hmr]
  omega

theorem size_le_of_limit (hk : 0 < k) (hbc : b ≤ c) : (SliceDim.mk a b k).size ≤ (SliceDim.mk a c k).size := by
  have h := (size_le_iff (d := ⟨a, c, k⟩) hk).mp le_rfl
  rw [size_le_iff hk]
  simp only at h ⊢
  omega

theorem positions_of_dvd (hk : 0 < k) (hab : a ≤ b) (hbc : b ≤ c) (hdvd : k ∣ b - a) :
    positions [⟨a, b, k⟩, ⟨b, c, k⟩] = positions [⟨a, c, k⟩] := by
  have hq := size_of_dvd hk hab hdvd
  generalize hn : (SliceDim.mk a b k).size = n at hq
  have hsize : (SliceDim.mk a c k).size = n + (SliceDim.mk b c k).size := by
    refine eq_of_forall_ge_iff fun m => ?_
    rw [size_le_iff hk]
    change c - a ≤ m * k ↔ _
    by_cases hm : n ≤ m
    · obtain ⟨m', rfl⟩ := Nat.exists_eq_add_of_le hm
      rw [Nat.add_le_add_iff_left, size_le_iff hk]
      change _ ↔ c - b ≤ m' * k
      push_cast
      rw [add_mul, hq]
      omega
    · have hlt : (m + 1 : Int) * k ≤ n * k := mul_le_mul_of_nonneg_right (by omega) hk.le
      rw [add_mul, one_mul] at hlt
      omega
  have hsrc : ∀ j, (SliceDim.mk a c k).source (n + j) = (SliceDim.mk b c k).source j := by
    intro j
    rw [SliceDim.source, SliceDim.source]
    push_cast
    rw [add_mul, hq]
    congr 1
    ring
  rw [positions_cons, positions_cons, positions_cons, hn, hsize, range_add, map_append, List.map_map, append_assoc]
  refine congrArg₂ (· ++ ·) rfl (congrArg (· ++ _) (map_congr_left fun j _ => ?_))
  exact (hsrc j).symm

theorem positions_of_empty (hzero : (SliceDim.mk b c k).size = 0) (hk : 0 < k) (hbc : b ≤ c) :
    positions [⟨a, b, k⟩, ⟨b, c, k⟩] = positions [⟨a, c, k⟩] := by
  have hle := (size_le_iff (d := ⟨b, c, k⟩) hk).mp hzero.le
  have hcb : c = b := by
    rw [Nat.cast_zero, zero_mul] at hle
    exact le_antisymm (sub_nonpos.mp hle) hbc
  rw [positions_cons, positions_cons, hzero, hcb, positions_cons]
  rfl

end

end Tensor
