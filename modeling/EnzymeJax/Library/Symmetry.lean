import EnzymeJax.Library.Elements
import Mathlib.Logic.Equiv.Basic

/-!
# Symmetries of tensors

Two dimensions of a tensor are swappable if they have one size and the elements stay the same when the coordinates are
exchanged. This is an equivalence, known from pairs that generate it, and a tensor may be read with its
coordinates permuted in any way that keeps its classes.
-/

namespace Tensor

open List Function Equiv

variable {α : Type*}

/-- The element at the coordinates `c`. -/
def read (t : Tensor α) (c : Nat → Nat) : α := t.get ((List.range t.shape.length).map c)

/-- Coordinates within a shape. -/
def Within (shape : List Nat) (c : Nat → Nat) : Prop := ∀ d < shape.length, c d < coord shape d

variable {shape : List Nat}

variable {c c' : Nat → Nat} {idx dims' : List Nat} {n d a b : Nat}

theorem Within.mem_indices (h : Within shape c) : (range shape.length).map c ∈ indices shape := by
  rw [mem_indices_iff, length_map, length_range]
  refine ⟨rfl, fun d hd => ?_⟩
  rw [coord_map_range _ hd]
  exact h d hd

theorem map_coord_range (hidx : idx.length = n) : (range n).map (coord idx) = idx := by
  refine ext_getElem (by simp [hidx]) fun d hd hd' => ?_
  rw [getElem_map, getElem_range, coord, getD_eq_getElem _ _ hd']

theorem within_coord {shape : List Nat} (h : idx ∈ indices shape) : Within shape (coord idx) :=
  (mem_indices_iff.mp h).2

theorem read_coord (t : Tensor α) (h : idx ∈ indices t.shape) : t.read (coord idx) = t.get idx := by
  rw [read, map_coord_range (length_of_mem_indices h)]

theorem read_congr (t : Tensor α) (h : ∀ d < t.shape.length, c d = c' d) : t.read c = t.read c' :=
  congrArg t.get (map_congr_left fun d hd => h d (mem_range.mp hd))

theorem read_mark (hd : d < shape.length) (g : Nat → α) (c : Nat → Nat) :
    (Tensor.mk shape fun idx => g (coord idx d)).read c = g (c d) := congrArg g (coord_map_range c hd)

theorem read_broadcastInDim {x t : Tensor α} {dims shape : List Nat} (h : broadcastInDim x dims shape = some t)
    (c : Nat → Nat) : t.read c = x.read fun i => if coord x.shape i = 1 then 0 else c (coord dims i) := by
  obtain ⟨hlen, -, hdims⟩ := broadcastOk_iff.mp (of_broadcastInDim h).1
  cases (if_pos (of_broadcastInDim h).1).symm.trans h
  refine congrArg x.get (ext_getElem (by simp [hlen]) fun i hi hi' => ?_)
  have hx : i < x.shape.length := by simpa using hi'
  have hd : i < dims.length := hlen ▸ hx
  rw [getElem_zipWith, getElem_map, getElem_range, ← coord_eq_getElem hx, ← coord_eq_getElem hd]
  dsimp only
  rw [coord_map_range _ (hdims i hd).1]

theorem Within.congr (hc : Within shape c) (h : ∀ d < shape.length, c d = c' d) : Within shape c' :=
  fun d hd => h d hd ▸ hc d hd

/-- Exchanging the coordinates of `i` and `j` changes nothing. -/
structure Swappable (t : Tensor α) (i j : Nat) : Prop where
  size_eq : coord t.shape i = coord t.shape j
  read_swap : ∀ c, Within t.shape c → t.read (c ∘ Equiv.swap i j) = t.read c

theorem Within.swap (hc : Within shape c) {i j : Nat} (hsize : coord shape i = coord shape j) :
    Within shape (c ∘ swap i j) := by
  -- A dimension that does not exist has size zero.
  have hlt : ∀ k, 0 < coord shape k → k < shape.length := by
    intro k hk
    by_contra hle
    rw [coord, getD_eq_default _ _ (Nat.not_lt.mp hle)] at hk
    exact absurd hk (lt_irrefl 0)
  intro d hd
  have hpos : 0 < coord shape d := Nat.lt_of_le_of_lt (Nat.zero_le _) (hc d hd)
  rw [comp_apply]
  by_cases hdi : d = i
  · subst hdi
    rw [swap_apply_left, hsize]
    exact hc j (hlt j (hsize ▸ hpos))
  · by_cases hdj : d = j
    · subst hdj
      rw [swap_apply_right, ← hsize]
      exact hc i (hlt i (hsize.symm ▸ hpos))
    · rw [swap_apply_of_ne_of_ne hdi hdj]
      exact hc d hd

namespace Swappable

variable {t : Tensor α} {i j k : Nat}

theorem refl (t : Tensor α) (i : Nat) : Swappable t i i :=
  ⟨rfl, fun c _ => by rw [Equiv.swap_self]; rfl⟩

theorem symm (h : Swappable t i j) : Swappable t j i :=
  ⟨h.size_eq.symm, fun c hc => by rw [Equiv.swap_comm]; exact h.read_swap c hc⟩

theorem trans (h : Swappable t i j) (h' : Swappable t j k) : Swappable t i k := by
  refine ⟨h.size_eq.trans h'.size_eq, fun c hc => ?_⟩
  by_cases hij : i = j
  · subst hij
    exact h'.read_swap c hc
  by_cases hik : i = k
  · subst hik
    exact (refl t i).read_swap c hc
  have hswap : c ∘ swap i k = ((c ∘ swap j k) ∘ swap i j) ∘ swap j k := by
    rw [swap_comm i k, ← swap_mul_swap_mul_swap hij hik]
    rfl
  have hc' := hc.swap h'.size_eq
  rw [hswap, h'.read_swap _ (hc'.swap h.size_eq), h.read_swap _ hc', h'.read_swap c hc]

end Swappable

/-- The dimensions of a tensor up to exchanges. -/
def symmetries (t : Tensor α) : Setoid Nat :=
  ⟨Swappable t, Swappable.refl t, Swappable.symm, Swappable.trans⟩

/-! ### Dimensions in another order -/

/-- The coordinates where dimension `dims[p]` has the coordinate `u p`. -/
def place (dims : List Nat) (u : Nat → Nat) (d : Nat) : Nat := u (dims.idxOf d)

section

variable {dims : List Nat} {u : Nat → Nat}

theorem place_getElem (hdims : dims.Nodup) {p : Nat} (hp : p < dims.length) :
    place dims u dims[p] = u p := by
  rw [place, Nodup.idxOf_getElem hdims]

theorem idxOf_map_perm (σ : Equiv.Perm Nat) (dims : List Nat) (d : Nat) :
    (dims.map σ).idxOf d = dims.idxOf (σ.symm d) := by
  induction dims with
  | nil => rfl
  | cons a dims ih =>
    rw [map_cons, idxOf_cons, idxOf_cons, ih]
    have hiff : (σ a == d) = (a == σ.symm d) := by
      rw [Bool.eq_iff_iff, beq_iff_eq, beq_iff_eq, Equiv.eq_symm_apply]
    rw [hiff]

theorem place_map (σ : Equiv.Perm Nat) (dims : List Nat) (u : Nat → Nat) :
    place (dims.map σ) u = place dims u ∘ σ.symm := by
  funext d
  rw [place, idxOf_map_perm]
  rfl

theorem place_comp_swap (hdims : dims.Nodup) {p q : Nat} (hp : p < dims.length) (hq : q < dims.length) :
    place dims (u ∘ swap p q) = place dims u ∘ swap dims[p] dims[q] := by
  funext d
  rw [place, comp_apply, comp_apply, place]
  congr 1
  by_cases hd : d ∈ dims
  · obtain ⟨r, hr, rfl⟩ := getElem_of_mem hd
    rw [Nodup.idxOf_getElem hdims]
    by_cases hrp : r = p
    · subst hrp
      rw [swap_apply_left, swap_apply_left, Nodup.idxOf_getElem hdims]
    · by_cases hrq : r = q
      · subst hrq
        rw [swap_apply_right, swap_apply_right, Nodup.idxOf_getElem hdims]
      · rw [swap_apply_of_ne_of_ne hrp hrq, swap_apply_of_ne_of_ne
          (fun h => hrp (hdims.getElem_inj_iff.mp h)) (fun h => hrq (hdims.getElem_inj_iff.mp h)),
          Nodup.idxOf_getElem hdims]
  · have hne : ∀ {r : Nat} (hr : r < dims.length), d ≠ dims[r] := fun hr heq =>
      hd (heq ▸ getElem_mem hr)
    rw [swap_apply_of_ne_of_ne (hne hp) (hne hq), idxOf_eq_length hd, swap_apply_of_ne_of_ne hp.ne' hq.ne']

theorem within_place (hdims : dims.Perm (range shape.length))
    (h : ∀ p (hp : p < dims.length), u p < coord shape dims[p]) : Within shape (place dims u) := by
  intro d hd
  have hmem : d ∈ dims := hdims.mem_iff.mpr (mem_range.mpr hd)
  obtain ⟨p, hp, rfl⟩ := getElem_of_mem hmem
  rw [place_getElem (hdims.nodup_iff.mpr nodup_range)]
  exact h p hp

end

theorem forall_place_iff {dims : List Nat} {u : Nat → Nat} (hdims : dims.Perm (range n))
    {P : Nat → Nat → Prop} : (∀ d < n, P (place dims u d) d) ↔ ∀ p < dims.length, P (u p) (coord dims p) := by
  have hnodup : dims.Nodup := hdims.nodup_iff.mpr nodup_range
  constructor
  · intro h p hp
    have hlt : dims[p] < n := mem_range.mp (hdims.mem_iff.mp (getElem_mem hp))
    have hpos := h dims[p] hlt
    rwa [place_getElem hnodup, ← coord_eq_getElem hp] at hpos
  · intro h d hd
    obtain ⟨p, hp, rfl⟩ := getElem_of_mem (hdims.mem_iff.mpr (mem_range.mpr hd))
    rw [place_getElem hnodup, ← coord_eq_getElem hp]
    exact h p hp

theorem swap_lt (ha : a < n) (hb : b < n) (hd : d < n) : swap a b d < n := by
  by_cases hda : d = a
  · rwa [hda, swap_apply_left]
  · by_cases hdb : d = b
    · rwa [hdb, swap_apply_right]
    · rwa [swap_apply_of_ne_of_ne hda hdb]

theorem map_swap_perm (ha : a < n) (hb : b < n) {dims : List Nat} (h : dims.Perm (range n)) :
    (dims.map (swap a b)).Perm (range n) := by
  refine (h.map _).trans ((perm_ext_iff_of_nodup ?_ nodup_range).mpr fun d => ?_)
  · exact nodup_range.map (Equiv.injective _)
  · rw [mem_map]
    constructor
    · intro ⟨e, he, heq⟩
      rw [← heq, mem_range]
      exact swap_lt ha hb (mem_range.mp he)
    · intro hd
      exact ⟨swap a b d, mem_range.mpr (swap_lt ha hb (mem_range.mp hd)), swap_apply_self a b d⟩

theorem Swappable.swap {t : Tensor α} (h : Swappable t a b) (d : Nat) : Swappable t (swap a b d) d := by
  by_cases hda : d = a
  · rw [hda, swap_apply_left]
    exact h.symm
  · by_cases hdb : d = b
    · rw [hdb, swap_apply_right]
      exact h
    · rw [swap_apply_of_ne_of_ne hda hdb]
      exact .refl t d

theorem read_place_append_congr {t : Tensor α} {u : Nat → Nat} {pre dims : List Nat}
    (hdims : (pre ++ dims).Perm (range t.shape.length)) (hdims' : (pre ++ dims').Perm (range t.shape.length))
    (hswap : Forall₂ (Swappable t) dims dims') (hu : Within t.shape (place (pre ++ dims) u)) :
    t.read (place (pre ++ dims) u) = t.read (place (pre ++ dims') u) := by
  -- Every exchange puts one more dimension in its place.
  induction hn : dims.length generalizing pre dims dims' with
  | zero =>
    obtain rfl := length_eq_zero_iff.mp hn
    cases hswap
    rfl
  | succ n ih =>
    cases hswap with
    | nil => cases hn
    | @cons a b dims dims' hab htail =>
      have hnodup : (pre ++ a :: dims).Nodup := hdims.nodup_iff.mpr nodup_range
      have hnodup' : (pre ++ b :: dims').Nodup := hdims'.nodup_iff.mpr nodup_range
      have ha : a < t.shape.length := mem_range.mp (hdims.mem_iff.mp (by simp))
      have hb : b < t.shape.length := mem_range.mp (hdims'.mem_iff.mp (by simp))
      have hpre : pre.map (swap a b) = pre := by
        refine (map_congr_left fun d hd => ?_).trans (map_id pre)
        refine swap_apply_of_ne_of_ne (fun heq => ?_) fun heq => ?_
        · exact (disjoint_of_nodup_append hnodup) hd (heq ▸ mem_cons_self)
        · exact (disjoint_of_nodup_append hnodup') hd (heq ▸ mem_cons_self)
      have hmap : (pre ++ a :: dims).map (swap a b) = (pre ++ [b]) ++ dims.map (swap a b) := by
        rw [map_append, hpre, map_cons, swap_apply_left, append_assoc]
        rfl
      have hplace : place ((pre ++ [b]) ++ dims.map (swap a b)) u = place (pre ++ a :: dims) u ∘ swap a b := by
        rw [← hmap, place_map, Equiv.symm_swap]
      have hperm : ((pre ++ [b]) ++ dims.map (swap a b)).Perm
          (range t.shape.length) := by
        rw [← hmap]
        exact map_swap_perm ha hb hdims
      have htail' : Forall₂ (Swappable t) (dims.map (swap a b)) dims' :=
        forall₂_map_left_iff.mpr (htail.imp fun d e hde => (hab.swap d).trans hde)
      have hwithin : Within t.shape (place ((pre ++ [b]) ++ dims.map (swap a b)) u) := by
        rw [hplace]
        exact hu.swap hab.size_eq
      have hlen : (dims.map (swap a b)).length = n := by
        rw [length_map]
        exact add_right_cancel hn
      have hih := ih hperm (by simpa using hdims') htail' hwithin hlen
      rw [hplace, hab.read_swap _ hu] at hih
      simpa using hih

theorem read_place_congr {t : Tensor α} {u : Nat → Nat} {dims : List Nat} (hdims : dims.Perm (range t.shape.length))
    (hdims' : dims'.Perm (range t.shape.length)) (hswap : Forall₂ (Swappable t) dims dims')
    (hu : Within t.shape (place dims u)) : t.read (place dims u) = t.read (place dims' u) := by
  rw [← nil_append dims] at hdims hu ⊢
  rw [← nil_append dims'] at hdims' ⊢
  exact read_place_append_congr hdims hdims' hswap hu

/-! ### Transposes -/

section

variable {x t : Tensor α}

section

variable {perm : List Nat} (h : transpose perm x = some t)

include h

theorem read_transpose (c : Nat → Nat) : t.read c = x.read (c ∘ perm.idxOf) := by
  rw [transpose] at h
  split at h
  · rename_i hperm
    cases h
    refine congrArg x.get (map_congr_left fun d hd => ?_)
    have hmem : d ∈ perm := hperm.mem_iff.mpr hd
    have hlt : perm.idxOf d < perm.length := idxOf_lt_length_of_mem hmem
    rw [coord_map _ _ (by simpa using hlt), getElem_range]
    rfl
  · cases h

theorem shape_transpose : perm.Perm (range x.shape.length) ∧ t.shape.length = x.shape.length ∧
      ∀ d < x.shape.length, coord perm d < x.shape.length ∧ perm.idxOf (coord perm d) = d ∧
        coord t.shape d = coord x.shape (coord perm d) := by
  rw [transpose] at h
  split at h
  · rename_i hperm
    cases h
    have hlen : perm.length = x.shape.length := by rw [hperm.length_eq, length_range]
    refine ⟨hperm, by rw [length_map, hlen], fun d hd => ?_⟩
    have hd' : d < perm.length := hlen ▸ hd
    have hget : coord perm d = perm[d] := by rw [coord, getD_eq_getElem _ _ hd']
    refine ⟨?_, ?_, ?_⟩
    · rw [hget]
      exact mem_range.mp (hperm.mem_iff.mp (getElem_mem hd'))
    · rw [hget, Nodup.idxOf_getElem (hperm.nodup_iff.mpr nodup_range)]
    · rw [coord_map _ _ hd', hget]
  · cases h

theorem swappable_transpose {i j : Nat} (hi : i < x.shape.length) (hj : j < x.shape.length)
    (hswap : Swappable x (coord perm i) (coord perm j)) : Swappable t i j := by
  obtain ⟨hperm, hlen, hdims⟩ := shape_transpose h
  obtain ⟨hi', hidxI, hsizeI⟩ := hdims i hi
  obtain ⟨hj', hidxJ, hsizeJ⟩ := hdims j hj
  refine ⟨by rw [hsizeI, hsizeJ, hswap.size_eq], fun c hc => ?_⟩
  have hwithin : Within x.shape (c ∘ perm.idxOf) := by
    intro d hd
    have hmem : d ∈ perm := hperm.mem_iff.mpr (mem_range.mpr hd)
    have hlt : perm.idxOf d < perm.length := idxOf_lt_length_of_mem hmem
    have hlt' : perm.idxOf d < x.shape.length := by
      rwa [hperm.length_eq, length_range] at hlt
    have hget : coord perm (perm.idxOf d) = d := by
      rw [coord, getD_eq_getElem _ _ hlt, getElem_idxOf hlt]
    have hbound := hc (perm.idxOf d) (hlen ▸ hlt')
    rwa [(hdims _ hlt').2.2, hget] at hbound
  rw [read_transpose h, read_transpose h, ← hswap.read_swap _ hwithin]
  refine congrArg x.read ?_
  have hiPerm : i < perm.length := by rwa [hperm.length_eq, length_range]
  have hjPerm : j < perm.length := by rwa [hperm.length_eq, length_range]
  have hgetI : coord perm i = perm[i] := by rw [coord, getD_eq_getElem]
  have hgetJ : coord perm j = perm[j] := by rw [coord, getD_eq_getElem]
  rw [hgetI, hgetJ]
  exact place_comp_swap (u := c) (hperm.nodup_iff.mpr nodup_range) hiPerm hjPerm

theorem swappable_of_transpose {i j : Nat} (hi : i < x.shape.length) (hj : j < x.shape.length)
    (hswap : Swappable t i j) : Swappable x (coord perm i) (coord perm j) := by
  obtain ⟨hperm, hlen, hdims⟩ := shape_transpose h
  obtain ⟨-, hidxI, hsizeI⟩ := hdims i hi
  obtain ⟨-, hidxJ, hsizeJ⟩ := hdims j hj
  refine ⟨by rw [← hsizeI, ← hsizeJ, hswap.size_eq], fun c hc => ?_⟩
  have hread : ∀ c, x.read c = t.read (c ∘ coord perm) := by
    intro c
    rw [read_transpose h]
    refine read_congr x fun d hd => ?_
    have hmem : d ∈ perm := hperm.mem_iff.mpr (mem_range.mpr hd)
    have hlt : perm.idxOf d < perm.length := idxOf_lt_length_of_mem hmem
    rw [comp_apply, comp_apply, coord_eq_getElem hlt, getElem_idxOf]
  have hwithin : Within t.shape (c ∘ coord perm) := by
    intro d hd
    obtain ⟨hlt, -, hsize⟩ := hdims d (hlen ▸ hd)
    rw [hsize]
    exact hc _ hlt
  rw [hread, hread, ← hswap.read_swap _ hwithin]
  refine read_congr t fun d hd => congrArg c ?_
  have hidx := (hdims d (hlen ▸ hd)).2.1
  by_cases hdi : d = i
  · rw [hdi, swap_apply_left, swap_apply_left]
  · by_cases hdj : d = j
    · rw [hdj, swap_apply_right, swap_apply_right]
    · rw [swap_apply_of_ne_of_ne hdi hdj, swap_apply_of_ne_of_ne
        (fun heq => hdi (by rw [← hidx, heq, hidxI])) fun heq => hdj (by rw [← hidx, heq, hidxJ])]

end

end

end Tensor
