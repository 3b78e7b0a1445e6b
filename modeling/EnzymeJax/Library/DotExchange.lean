import EnzymeJax.Library.DotGeneral

/-!
# Exchanging the operands of a product

If the right operand of a product is a transpose of the left one, the two may be exchanged. This permutes the pairs
of contracting dimensions, and takes the free dimensions of one side to those of the other, so it is a swap of
two dimensions of the result only if each side has one.
-/

namespace Tensor

open Finset List Equiv

/-! ### The order of the contracting dimensions -/

section

variable {β : Type*} [DecidableEq β] {l l' : List β}

/-- The coordinates of `l`, in the order of `l'`. -/
def reorder (l l' : List β) (k : List Nat) : List Nat := l'.map fun e => coord k (l.idxOf e)

variable {k : List Nat}

theorem coord_reorder {e : β} (he : e ∈ l') : coord (reorder l l' k) (l'.idxOf e) = coord k (l.idxOf e) := by
  rw [reorder, coord_map _ _ (idxOf_lt_length_of_mem he), getElem_idxOf]

theorem reorder_mem_indices (size : β → Nat) (hperm : l.Perm l') (hk : k ∈ indices (l.map size)) :
    reorder l l' k ∈ indices (l'.map size) := by
  rw [mem_indices_iff]
  refine ⟨by rw [reorder, length_map, length_map], fun d hd => ?_⟩
  rw [length_map] at hd
  have hmem : l'[d] ∈ l := hperm.mem_iff.mpr (getElem_mem hd)
  have hlt : l.idxOf l'[d] < l.length := idxOf_lt_length_of_mem hmem
  have hcoord := (mem_indices_iff.mp hk).2 (l.idxOf l'[d]) (by rwa [length_map])
  rw [coord_map _ _ hlt, getElem_idxOf] at hcoord
  rwa [reorder, coord_map _ _ hd, coord_map _ _ hd]

theorem reorder_reorder (hl : l.Nodup) (hperm : l.Perm l') (hk : k.length = l.length) :
    reorder l' l (reorder l l' k) = k := by
  refine ext_getElem (by rw [reorder, length_map, hk]) fun d hd hd' => ?_
  have hdl : d < l.length := hk ▸ hd'
  have hmem : l[d] ∈ l' := hperm.mem_iff.mp (getElem_mem hdl)
  rw [← coord_eq_getElem hd, ← coord_eq_getElem hd', reorder, coord_map _ _ hdl,
    coord_reorder hmem, Nodup.idxOf_getElem hl]

theorem sum_reorder {M : Type*} [AddCommMonoid M] (size : β → Nat) (hl : l.Nodup) (hperm : l.Perm l')
    (f : List Nat → M) : ∑ k ∈ indices (l'.map size), f k = ∑ k ∈ indices (l.map size), f (reorder l l' k) := by
  have hl' : l'.Nodup := hperm.nodup_iff.mp hl
  have hlen : ∀ {l : List β} {k : List Nat}, k ∈ indices (l.map size) → k.length = l.length :=
    fun hk => by rw [length_of_mem_indices hk, length_map]
  refine sum_nbij' (reorder l' l) (reorder l l') (fun k hk => ?_) (fun k hk => ?_) (fun k hk => ?_)
    (fun k hk => ?_) fun k hk => ?_
  · exact reorder_mem_indices size hperm.symm hk
  · exact reorder_mem_indices size hperm hk
  · exact reorder_reorder hl' hperm.symm (hlen hk)
  · exact reorder_reorder hl hperm (hlen hk)
  · rw [reorder_reorder hl' hperm.symm (hlen hk)]

end

theorem read_place_of_match {α : Type*} {x : Tensor α} {dims dims' : List Nat} {u u' : Nat → Nat}
    (hdims : dims.Perm (range x.shape.length)) (hdims' : dims'.Nodup)
    (hmatch : ∀ p < dims.length, ∃ q < dims'.length, coord dims' q = coord dims p ∧ u' q = u p) :
    x.read (place dims' u') = x.read (place dims u) := by
  refine read_congr x fun d hd => ?_
  obtain ⟨p, hp, rfl⟩ := getElem_of_mem (hdims.mem_iff.mpr (List.mem_range.mpr hd))
  obtain ⟨q, hq, hdim, hcoord⟩ := hmatch p hp
  rw [place_getElem (hdims.nodup_iff.mpr nodup_range), ← hcoord, ← coord_eq_getElem hp, ← hdim,
    coord_eq_getElem hq, place_getElem hdims']

section

variable {α : Type*} {x y : Tensor α} {perm dims : List Nat} {u : Nat → Nat}

section

variable (h : transpose perm x = some y) (hdims : dims.Perm (List.range y.shape.length))

include h hdims

theorem map_perm_transpose : (dims.map (coord perm)).Perm (range x.shape.length) := by
  obtain ⟨hperm, hlen, -⟩ := shape_transpose h
  rw [hlen] at hdims
  refine (hdims.map _).trans (List.Perm.trans (.of_eq ?_) hperm)
  have hlen' : perm.length = x.shape.length := by rw [hperm.length_eq, length_range]
  exact map_coord_range hlen'

theorem place_map_transpose {d : Nat} (hd : d < x.shape.length) :
    perm.idxOf d < y.shape.length ∧ coord perm (perm.idxOf d) = d ∧
      place (dims.map (coord perm)) u d = place dims u (perm.idxOf d) := by
  have hmap := map_perm_transpose h hdims
  obtain ⟨hperm, hlen, -⟩ := shape_transpose h
  have hmem : d ∈ perm := hperm.mem_iff.mpr (List.mem_range.mpr hd)
  have hlt : perm.idxOf d < perm.length := idxOf_lt_length_of_mem hmem
  have hlt' : perm.idxOf d < y.shape.length := by
    rwa [hperm.length_eq, length_range, ← hlen] at hlt
  have hcoord : coord perm (perm.idxOf d) = d := by
    rw [coord_eq_getElem hlt, getElem_idxOf]
  refine ⟨hlt', hcoord, ?_⟩
  obtain ⟨p, hp, heq⟩ := getElem_of_mem (hdims.mem_iff.mpr (List.mem_range.mpr hlt'))
  have hp' : p < (dims.map (coord perm)).length := by rwa [length_map]
  have hget : (dims.map (coord perm))[p] = d := by rw [getElem_map, heq, hcoord]
  have hplace := place_getElem (u := u) (hmap.nodup_iff.mpr nodup_range) hp'
  rw [hget] at hplace
  rw [hplace, ← heq, place_getElem (hdims.nodup_iff.mpr nodup_range)]

theorem read_place_transpose : y.read (place dims u) = x.read (place (dims.map (coord perm)) u) := by
  rw [read_transpose h]
  exact read_congr x fun d hd => (place_map_transpose h hdims hd).2.2.symm

theorem within_place_transpose (hu : Within y.shape (place dims u)) :
    Within x.shape (place (dims.map (coord perm)) u) := by
  intro d hd
  obtain ⟨hlt, hcoord, hplace⟩ := place_map_transpose (u := u) h hdims hd
  obtain ⟨-, hlen, hsize⟩ := shape_transpose h
  have hbound := hu _ hlt
  rwa [(hsize _ (hlen ▸ hlt)).2.2, hcoord, ← hplace] at hbound

end

end

section

variable {β : Type*} [DecidableEq β] {l l' : List β} {dims : DotDims} {skip : Nat} {c : Nat → Nat}

theorem read_reorder {α : Type*} {x : Tensor α} {dim : β → Nat} {batching free k : List Nat}
    (hdims : (batching ++ l.map dim ++ free).Perm (range x.shape.length)) (hl : l.Nodup) (hperm : l.Perm l')
    (hbatching : batching.length = dims.lhsBatching.length) (hlen : l.length = dims.lhsContracting.length) :
    x.read (place (batching ++ l'.map dim ++ free) (dims.operandCoords skip c (coord (reorder l l' k)))) =
      x.read (place (batching ++ l.map dim ++ free) (dims.operandCoords skip c (coord k))) := by
  have hlen' : l'.length = l.length := hperm.length_eq.symm
  have hnodup : (batching ++ l'.map dim ++ free).Nodup :=
    (((hperm.symm.map dim).append_left batching).append_right free |>.trans hdims).nodup_iff.mpr
      nodup_range
  refine read_place_of_match hdims hnodup fun p hp => ?_
  rw [length_append, length_append, length_map] at hp
  rw [length_append, length_append, length_map, hlen']
  by_cases hcontracting : batching.length ≤ p ∧ p < batching.length + l.length
  · -- The coordinate of a contracting dimension is where the dimension has gone.
    obtain ⟨j, rfl⟩ := Nat.exists_eq_add_of_le hcontracting.1
    have hj : j < l.length := Nat.lt_of_add_lt_add_left hcontracting.2
    have hmem : l[j] ∈ l' := hperm.mem_iff.mp (getElem_mem hj)
    have hidx : l'.idxOf l[j] < l'.length := idxOf_lt_length_of_mem hmem
    refine ⟨batching.length + l'.idxOf l[j], by omega, ?_, ?_⟩
    · rw [coord_append_three, coord_append_three, length_map, length_map, if_neg (by omega),
        if_pos (by omega), if_neg (by omega), if_pos (by omega), Nat.add_sub_cancel_left,
        Nat.add_sub_cancel_left, coord_map _ _ hidx, coord_map _ _ hj, getElem_idxOf]
    · rw [DotDims.operandCoords, DotDims.operandCoords, ← hbatching, ← hlen, if_neg (by omega),
        if_pos (by omega), if_neg (by omega), if_pos (by omega), Nat.add_sub_cancel_left,
        Nat.add_sub_cancel_left, coord_reorder hmem,
        Nodup.idxOf_getElem hl]
  · refine ⟨p, hp, ?_, ?_⟩
    · rw [coord_append_three, coord_append_three, length_map, length_map, hlen']
      split
      · rfl
      · rw [if_neg (by omega), if_neg (by omega)]
    · rw [DotDims.operandCoords, DotDims.operandCoords, ← hbatching, ← hlen]
      split
      · rfl
      · rw [if_neg (by omega), if_neg (by omega)]

end

/-! ### The exchange -/

section

variable {dims : DotDims} {c k : Nat → Nat} {r : Nat}

theorem operandCoords_exchange (hr : r < dims.lhsBatching.length + dims.lhsContracting.length + 1) :
    dims.operandCoords 0 (c ∘ swap dims.lhsBatching.length (dims.lhsBatching.length + 1)) k r =
        dims.operandCoords 1 c k r ∧
      dims.operandCoords 1 (c ∘ swap dims.lhsBatching.length (dims.lhsBatching.length + 1)) k r =
        dims.operandCoords 0 c k r := by
  unfold DotDims.operandCoords
  split
  · rw [Function.comp_apply, swap_apply_of_ne_of_ne (by omega) (by omega)]
    exact ⟨rfl, rfl⟩
  · split
    · exact ⟨rfl, rfl⟩
    · obtain rfl : r = dims.lhsBatching.length + dims.lhsContracting.length := by omega
      rw [Nat.add_sub_cancel]
      exact ⟨congrArg c (swap_apply_left _ _), congrArg c (swap_apply_right _ _)⟩

variable {R : Type*} [CommRing R]

theorem sum_exchange (dims : DotDims) (c : Nat → Nat) {x : Tensor R} {lb lb' : List Nat} {l l' : List (Nat × Nat)}
    {f f' : Nat} (hlhs : (lb ++ l.map Prod.fst ++ [f]).Perm (range x.shape.length))
    (hrhs : (lb' ++ l.map Prod.snd ++ [f']).Perm (range x.shape.length)) (hbatching : Forall₂ (Swappable x) lb lb')
    (hperm : l.Perm l') (hcontracting : Forall₂ (fun e e' => Swappable x e.1 e'.2 ∧ Swappable x e.2 e'.1) l l')
    (hfree : Swappable x f f') (hlb : lb.length = dims.lhsBatching.length)
    (hl : l.length = dims.lhsContracting.length) (hsize : ∀ e ∈ l, coord x.shape e.1 = coord x.shape e.2)
    (hwithin : ∀ k ∈ indices (l.map fun e => coord x.shape e.1),
      Within x.shape (place (lb ++ l.map Prod.fst ++ [f]) (dims.operandCoords 1 c (coord k))) ∧
        Within x.shape (place (lb' ++ l.map Prod.snd ++ [f']) (dims.operandCoords 0 c (coord k)))) :
    ∑ k ∈ indices (l.map fun e => coord x.shape e.1),
        x.read (place (lb ++ l.map Prod.fst ++ [f]) (dims.operandCoords 1 c (coord k))) *
          x.read (place (lb' ++ l.map Prod.snd ++ [f']) (dims.operandCoords 0 c (coord k))) =
      ∑ k ∈ indices (l.map fun e => coord x.shape e.1),
        x.read (place (lb ++ l.map Prod.fst ++ [f]) (dims.operandCoords 0 c (coord k))) *
          x.read (place (lb' ++ l.map Prod.snd ++ [f']) (dims.operandCoords 1 c (coord k))) := by
  have hlb' : lb'.length = dims.lhsBatching.length := hbatching.length_eq.symm.trans hlb
  have hnodup : l.Nodup := by
    refine Nodup.of_map Prod.fst ?_
    exact (nodup_append.mp (nodup_append.mp (hlhs.nodup_iff.mpr nodup_range)).1).2.1
  have hlhs' : (lb ++ l'.map Prod.fst ++ [f]).Perm (range x.shape.length) :=
    (((hperm.symm.map _).append_left lb).append_right [f]).trans hlhs
  have hrhs' : (lb' ++ l'.map Prod.snd ++ [f']).Perm (range x.shape.length) :=
    (((hperm.symm.map _).append_left lb').append_right [f']).trans hrhs
  -- Every dimension of one side is exchanged with one of the other.
  have hforward : Forall₂ (Swappable x) (lb ++ l.map Prod.fst ++ [f])
      (lb' ++ l'.map Prod.snd ++ [f']) := by
    refine rel_append (rel_append hbatching ?_) (.cons hfree .nil)
    exact forall₂_map_left_iff.mpr (forall₂_map_right_iff.mpr (hcontracting.imp fun _ _ h => h.1))
  have hbackward : Forall₂ (Swappable x) (lb' ++ l.map Prod.snd ++ [f'])
      (lb ++ l'.map Prod.fst ++ [f]) := by
    refine rel_append (rel_append ?_ ?_) (.cons hfree.symm .nil)
    · exact hbatching.flip.imp fun _ _ h => h.symm
    · exact forall₂_map_left_iff.mpr (forall₂_map_right_iff.mpr (hcontracting.imp fun _ _ h => h.2))
  have hshape : l.map (fun e => coord x.shape e.1) = l'.map fun e => coord x.shape e.1 := by
    have hsnd : Forall₂ (fun e e' : Nat × Nat => coord x.shape e.1 = coord x.shape e'.2) l l' :=
      hcontracting.imp fun _ _ h => h.1.size_eq
    have heq : l.map (fun e => coord x.shape e.1) = l'.map fun e => coord x.shape e.2 :=
      forall₂_eq_eq_eq ▸ forall₂_map_left_iff.mpr (forall₂_map_right_iff.mpr hsnd)
    rw [heq]
    exact map_congr_left fun e he => (hsize e (hperm.mem_iff.mpr he)).symm
  calc
    _ = ∑ k ∈ indices (l'.map fun e => coord x.shape e.1),
          x.read (place (lb ++ l'.map Prod.fst ++ [f]) (dims.operandCoords 0 c (coord k))) *
            x.read (place (lb' ++ l'.map Prod.snd ++ [f']) (dims.operandCoords 1 c (coord k))) := by
      rw [← hshape]
      refine sum_congr rfl fun k hk => ?_
      rw [mul_comm]
      exact congrArg₂ _
        (read_place_congr hrhs hlhs' hbackward (hwithin k hk).2)
        (read_place_congr hlhs hrhs' hforward (hwithin k hk).1)
    _ = _ := by
      rw [sum_reorder _ hnodup hperm]
      refine sum_congr rfl fun k _ => congrArg₂ _ ?_ ?_
      · exact read_reorder hlhs hnodup hperm hlb hl
      · exact read_reorder hrhs hnodup hperm hlb' hl

theorem DotDims.Layout.swappable_exchange {x y t : Tensor R} (h : dims.Layout x y t) {perm : List Nat}
    (hperm : transpose perm x = some y) {f f' : Nat} (hlhs : dims.lhsFree x.shape.length = [f])
    (hrhs : dims.rhsFree y.shape.length = [f']) (hbatching : Forall₂ (Swappable x)
      dims.lhsBatching (dims.rhsBatching.map (coord perm))) (hfree : Swappable x f (coord perm f'))
    {l' : List (Nat × Nat)} (hl' : (dims.lhsContracting.zip (dims.rhsContracting.map (coord perm))).Perm l')
    (hcontracting : Forall₂ (fun e e' => Swappable x e.1 e'.2 ∧ Swappable x e.2 e'.1)
      (dims.lhsContracting.zip (dims.rhsContracting.map (coord perm))) l') :
    Swappable t dims.lhsBatching.length (dims.lhsBatching.length + 1) := by
  have hlengths : dims.lhsContracting.length = (dims.rhsContracting.map (coord perm)).length := by
    rw [length_map, h.ok.contracting_length]
  have hfst : (dims.lhsContracting.zip (dims.rhsContracting.map (coord perm))).map Prod.fst =
      dims.lhsContracting := map_fst_zip hlengths.le
  have hsnd : (dims.lhsContracting.zip (dims.rhsContracting.map (coord perm))).map Prod.snd =
      dims.rhsContracting.map (coord perm) := map_snd_zip hlengths.ge
  have hlhsDims : dims.lhsDims x.shape.length = dims.lhsBatching ++
      (dims.lhsContracting.zip (dims.rhsContracting.map (coord perm))).map Prod.fst ++ [f] := by
    rw [lhsDims, hlhs, hfst]
  have hrhsDims : (dims.rhsDims y.shape.length).map (coord perm) = dims.rhsBatching.map (coord perm) ++
        (dims.lhsContracting.zip (dims.rhsContracting.map (coord perm))).map Prod.snd ++ [coord perm f'] := by
    rw [rhsDims, hrhs, hsnd, map_append, map_append, List.map_singleton]
  obtain ⟨-, hrank, hdims⟩ := shape_transpose hperm
  have hsizeY : ∀ d < y.shape.length, coord y.shape d = coord x.shape (coord perm d) :=
    fun d hd => (hdims d (hrank ▸ hd)).2.2
  have hsize : coord t.shape dims.lhsBatching.length = coord t.shape (dims.lhsBatching.length + 1) := by
    have hlhsSize := h.size_lhsFree 0 (by rw [hlhs]; exact zero_lt_one)
    have hrhsSize := h.size_rhsFree 0 (by rw [hrhs]; exact zero_lt_one)
    have hf' : f' < y.shape.length := by
      refine List.mem_range.mp (h.rhs_perm.mem_iff.mp ?_)
      rw [rhsDims, hrhs]
      exact mem_append_right _ mem_cons_self
    rw [hlhs] at hlhsSize hrhsSize
    rw [hrhs] at hrhsSize
    exact hlhsSize.trans (hfree.size_eq.trans ((hsizeY f' hf').symm.trans hrhsSize.symm))
  refine ⟨hsize, fun c hc => ?_⟩
  have hlengthX := h.length_lhs
  have hlengthY := h.length_rhs
  rw [hlhs, length_singleton] at hlengthX
  rw [hrhs, length_singleton] at hlengthY
  have hreadY : ∀ u, y.read (place (dims.rhsDims y.shape.length) u) =
      x.read (place ((dims.rhsDims y.shape.length).map (coord perm)) u) :=
    fun _ => read_place_transpose hperm h.rhs_perm
  have hrhsPerm := map_perm_transpose hperm h.rhs_perm
  -- The swapped coordinates are those of the operands, exchanged.
  have hswapX : ∀ k, ∀ r < (dims.lhsDims x.shape.length).length, dims.operandCoords 0
      (c ∘ swap dims.lhsBatching.length (dims.lhsBatching.length + 1)) k r = dims.operandCoords 1 c k r := by
    refine fun k r hr => (operandCoords_exchange ?_).1
    rwa [length_lhsDims, hlhs] at hr
  have hswapY : ∀ k, ∀ r < (dims.rhsDims y.shape.length).length, dims.operandCoords 1
      (c ∘ swap dims.lhsBatching.length (dims.lhsBatching.length + 1)) k r = dims.operandCoords 0 c k r := by
    refine fun k r hr => (operandCoords_exchange ?_).2
    rwa [h.length_rhsDims, hrhs] at hr
  have hshape : dims.lhsContracting.map (coord x.shape) =
      (dims.lhsContracting.zip (dims.rhsContracting.map (coord perm))).map fun e =>
        coord x.shape e.1 := by
    conv_lhs => rw [← hfst, List.map_map]
    rfl
  have hsizes : ∀ e ∈ dims.lhsContracting.zip (dims.rhsContracting.map (coord perm)),
      coord x.shape e.1 = coord x.shape e.2 := by
    intro e he
    obtain ⟨j, hj, rfl⟩ := getElem_of_mem he
    rw [length_zip, length_map, h.ok.contracting_length, min_self] at hj
    have hj' : j < dims.rhsContracting.length := h.ok.contracting_length.symm ▸ hj
    have hsizeJ := h.size_rhsContracting hj
    have hlt : coord dims.rhsContracting j < y.shape.length := by
      rw [coord_eq_getElem hj']
      exact h.ok.rhs_lt _ (mem_append_right _ (getElem_mem hj'))
    rw [hsizeY _ hlt, coord_eq_getElem hj, coord_eq_getElem hj'] at hsizeJ
    rw [getElem_zip, getElem_map]
    exact hsizeJ
  have hwithin : ∀ k ∈ indices (dims.lhsContracting.map (coord x.shape)),
      Within x.shape (place (dims.lhsDims x.shape.length) (dims.operandCoords 1 c (coord k))) ∧
        Within x.shape (place ((dims.rhsDims y.shape.length).map (coord perm)) (dims.operandCoords 0 c (coord k))) := by
    intro k hk
    have hX := h.within_lhs (hc.swap hsize) (contracting_lt hk)
    have hY := h.within_rhs (hc.swap hsize) (contracting_lt hk)
    rw [hlhs, length_singleton] at hY
    refine ⟨hX.congr fun d hd => hswapX _ _ ?_,
      within_place_transpose hperm h.rhs_perm (hY.congr fun d hd => hswapY _ _ ?_)⟩
    · exact idxOf_lt_length_of_mem (h.lhs_perm.mem_iff.mpr (List.mem_range.mpr hd))
    · exact idxOf_lt_length_of_mem (h.rhs_perm.mem_iff.mpr (List.mem_range.mpr hd))
  have hexchange := sum_exchange dims c
    (hlhsDims ▸ h.lhs_perm) (hrhsDims ▸ hrhsPerm) hbatching hl' hcontracting hfree rfl
    (by rw [length_zip, ← hlengths, min_self]) hsizes
    (by rw [← hshape, ← hlhsDims, ← hrhsDims]; exact hwithin)
  rw [← hshape, ← hlhsDims, ← hrhsDims] at hexchange
  rw [h.read_eq, h.read_eq, hlhs, length_singleton]
  refine Eq.trans (sum_congr rfl fun k _ => congrArg₂ _ ?_ ?_)
    (hexchange.trans (sum_congr rfl fun k _ => congrArg _ (hreadY _).symm))
  · exact read_place_eq h.lhs_perm (hswapX _)
  · exact (read_place_eq h.rhs_perm (hswapY _)).trans (hreadY _)

end

end Tensor
