import EnzymeJax.Library.Reads

/-!
# What frames the middle operands of a concatenation

A concatenation is an update of a tensor that has the elements of the operands at both ends, and a pad of the operands
in the middle if all others have the padding value.
-/

namespace Tensor

open List Option Function

variable {α : Type*} {d : Nat} {shape : List Nat} {pre mids post xs : List (Tensor α)} {m x z : Tensor α} {v : α}

theorem allSome_append {β γ : Type*} {f : β → Option γ} {as bs : List β} {ts : List γ}
    (h : allSome ((as ++ bs).map f) = some ts) :
    ∃ xs ys, ts = xs ++ ys ∧ allSome (as.map f) = some xs ∧ allSome (bs.map f) = some ys := by
  rw [allSome_eq_some_iff, map_append, eq_comm, map_eq_append_iff] at h
  obtain ⟨xs, ys, rfl, hxs, hys⟩ := h
  exact ⟨xs, ys, rfl, allSome_eq_some_iff.mpr hxs.symm, allSome_eq_some_iff.mpr hys.symm⟩

/-- One operand as it is, or the concatenation of more. -/
def join (d : Nat) : List (Tensor α) → Option (Tensor α)
  | [x] => some x
  | xs => concatenate d xs

/-- The tensor has the elements of the operands, one after another. -/
structure Joined (d : Nat) (shape : List Nat) (xs : List (Tensor α)) (m : Tensor α) : Prop where
  shape_eq : m.shape = shape.set d (total d xs)
  read_eq : ∀ c, Within m.shape c → some (m.read c) = pieceAt d xs c

theorem exists_joined (hd : d < shape.length) (hfits : FitTogether d shape xs) (hne : xs ≠ []) :
    ∃ m, join d xs = some m ∧ Joined d shape xs m := by
  have hconcat : ∃ m, concatenate d xs = some m ∧ Joined d shape xs m := by
    obtain ⟨m, hm, hpieces⟩ := concatenate_pieces hd hne hfits
    exact ⟨m, hm, hpieces.shape_eq, fun c hc => read_concatenate hm hc⟩
  cases xs with
  | nil => exact absurd rfl hne
  | cons x xs =>
    cases xs with
    | cons y xs => exact hconcat
    | nil =>
      have hx := hfits x mem_cons_self
      have hd' : d < x.shape.length := (hfits.length_shape mem_cons_self).symm ▸ hd
      refine ⟨x, rfl, ?_, fun c hc => ?_⟩
      · rw [total_cons, total_nil, add_zero]
        exact shape_eq_set hx
      · rw [pieceAt, if_pos (hc d hd')]

section

variable (hz : concatenate d (pre ++ mids ++ post) = some z) (hm : Joined d z.shape mids m)

include hz hm

theorem Joined.coord_eq {e : Nat} : coord m.shape e = if e = d then total d mids else coord z.shape e := by
  obtain ⟨hd, -, -, -⟩ := pieces_of_concatenate hz
  rw [hm.shape_eq]
  split
  · rename_i hed
    rw [hed, coord_set_self hd]
  · rename_i hed
    exact coord_set_of_ne hed _

theorem read_framed {c : Nat → Nat} (hc : Within z.shape c) : (c d < total d pre → some (z.read c) = pieceAt d pre c) ∧
    (total d pre ≤ c d → c d < total d pre + total d mids → z.read c = m.read (update c d (c d - total d pre))) ∧
    (total d pre + total d mids ≤ c d → some (z.read c) =
      pieceAt d post (update c d (c d - (total d pre + total d mids)))) := by
  have hread := read_concatenate hz hc
  rw [append_assoc, pieceAt_append] at hread
  refine ⟨fun hlt => by rw [hread, if_pos hlt], fun hge hlt => ?_, fun hge => ?_⟩
  · rw [if_neg (not_lt.mpr hge), pieceAt_append, update_self, if_pos (by omega)] at hread
    rw [← hm.read_eq] at hread
    · exact some.inj hread
    · intro e he
      rw [hm.coord_eq hz]
      rw [hm.shape_eq, length_set] at he
      by_cases hed : e = d
      · rw [if_pos hed, hed, update_self]
        omega
      · rw [if_neg hed, update_of_ne hed]
        exact hc e he
  · rw [if_neg (by omega), pieceAt_append, update_self, if_neg (by omega), update_idem, Nat.sub_sub] at hread
    exact hread

omit hm in
theorem total_framed : coord z.shape d = total d pre + total d mids + total d post := by
  rw [coord_concatenate hz, total_append, total_append]

theorem framed_update (hx : x.shape = z.shape)
    (hpre : ∀ c, Within z.shape c → c d < total d pre → pieceAt d pre c = some (x.read c))
    (hpost : ∀ c, Within z.shape c → total d pre + total d mids ≤ c d →
      pieceAt d post (update c d (c d - (total d pre + total d mids))) = some (x.read c)) :
    ∃ w, dynamicUpdateSlice ((replicate z.shape.length 0).set d (total d pre : Int)) m x = some w ∧ Same w z := by
  obtain ⟨hd, -, -, -⟩ := pieces_of_concatenate hz
  have htotal := total_framed hz
  have hlen : m.shape.length = z.shape.length := by rw [hm.shape_eq, length_set]
  have hle : ∀ e < z.shape.length, coord m.shape e ≤ coord z.shape e := by
    intro e he
    rw [hm.coord_eq hz]
    split
    · rename_i hed
      rw [hed]
      omega
    · exact le_rfl
  obtain ⟨w, hw⟩ : ∃ w, dynamicUpdateSlice ((replicate z.shape.length 0).set d (total d pre : Int)) m x = some w := by
    refine ⟨_, if_pos ⟨by rw [length_set, length_replicate, hx], ?_⟩⟩
    rw [hx]
    refine forall₂_iff_get.mpr ⟨hlen, fun e he he' => ?_⟩
    rw [get_eq_getElem, get_eq_getElem, ← coord_eq_getElem he, ← coord_eq_getElem he']
    exact hle e he'
  obtain ⟨-, hwshape, hread⟩ := read_dynamicUpdateSlice hw
  rw [hx] at hwshape hread
  have hstart : ∀ e < z.shape.length, updateStart z.shape m.shape
      ((replicate z.shape.length 0).set d (total d pre : Int)) e = if e = d then total d pre else 0 := by
    intro e he
    rw [updateStart, getD_eq_getElem _ _ (by rwa [length_set, length_replicate])]
    by_cases hed : e = d
    · subst hed
      rw [getElem_set_self, if_pos rfl]
      refine clampStart_eq _ ?_
      rw [hm.coord_eq hz, if_pos rfl]
      omega
    · rw [getElem_set_ne (Ne.symm hed), getElem_replicate, if_neg hed]
      exact clampStart_eq 0 (by rw [zero_add]; exact hle e he)
  refine ⟨w, hw, same_of_read hwshape fun c hc => ?_⟩
  rw [hwshape] at hc
  obtain ⟨hfirst, hmiddle, hlast⟩ := read_framed hz hm hc
  have hiff : (∀ e < z.shape.length, updateStart z.shape m.shape
      ((replicate z.shape.length 0).set d (total d pre : Int)) e ≤ c e ∧ c e < updateStart z.shape m.shape
        ((replicate z.shape.length 0).set d (total d pre : Int)) e + coord m.shape e) ↔
          total d pre ≤ c d ∧ c d < total d pre + total d mids := by
    constructor
    · intro h
      have hat := h d hd
      rwa [hstart d hd, if_pos rfl, hm.coord_eq hz, if_pos rfl] at hat
    · intro h e he
      rw [hstart e he, hm.coord_eq hz]
      split
      · rename_i hed
        rw [hed]
        exact h
      · exact ⟨Nat.zero_le _, by rw [Nat.zero_add]; exact hc e he⟩
  by_cases hin : total d pre ≤ c d ∧ c d < total d pre + total d mids
  · rw [(hread c hc).1 (hiff.mpr hin), hmiddle hin.1 hin.2]
    refine read_congr m fun e he => ?_
    rw [hstart e (hlen ▸ he)]
    split
    · rename_i hed
      rw [hed, update_self]
    · rename_i hed
      rw [update_of_ne hed, Nat.sub_zero]
  · rw [(hread c hc).2 fun h => hin (hiff.mp h)]
    by_cases hlt : c d < total d pre
    · have hat := hfirst hlt
      rw [hpre c hc hlt] at hat
      exact (some.inj hat).symm
    · have hat := hlast (by omega)
      rw [hpost c hc (by omega)] at hat
      exact (some.inj hat).symm

theorem framed_pad (hpre : ∀ c, Within z.shape c → c d < total d pre → pieceAt d pre c = some v)
    (hpost : ∀ c, Within z.shape c → total d pre + total d mids ≤ c d →
      pieceAt d post (update c d (c d - (total d pre + total d mids))) = some v) :
    ∃ w, pad ((replicate z.shape.length ⟨0, 0, 0⟩).set d ⟨total d pre, total d post, 0⟩) v m = some w ∧ Same w z := by
  obtain ⟨hd, -, -, -⟩ := pieces_of_concatenate hz
  have htotal := total_framed hz
  have hlen : m.shape.length = z.shape.length := by rw [hm.shape_eq, length_set]
  have hdim : ∀ e < z.shape.length,
      padDim ((replicate z.shape.length ⟨0, 0, 0⟩).set d ⟨total d pre, total d post, 0⟩) e =
        if e = d then ⟨total d pre, total d post, 0⟩ else ⟨0, 0, 0⟩ := by
    intro e he
    rw [padDim_eq_getElem (by rwa [length_set, length_replicate]), getElem_set]
    by_cases hed : e = d
    · rw [if_pos hed, if_pos hed.symm]
    · rw [if_neg hed, if_neg (Ne.symm hed), getElem_replicate]
  have hpads : ((replicate z.shape.length (PadDim.mk 0 0 0)).set d
      ⟨total d pre, total d post, 0⟩).length = z.shape.length := by rw [length_set, length_replicate]
  have hsize : ∀ e < z.shape.length,
      (padDim ((replicate z.shape.length ⟨0, 0, 0⟩).set d ⟨total d pre, total d post, 0⟩) e).size
        (coord m.shape e) = coord z.shape e := by
    intro e he
    rw [hdim e he, hm.coord_eq hz]
    split
    · rename_i hed
      rw [PadDim.size_of_interior rfl, hed, htotal]
      push_cast
      rfl
    · rw [PadDim.size_of_interior rfl, zero_add, add_zero]
  obtain ⟨w, hw⟩ := exists_pad v (hpads.trans hlen.symm) fun e he => by
    have he' : e < z.shape.length := hpads ▸ he
    refine ⟨?_, by rw [hsize e he']; exact Int.natCast_nonneg _⟩
    rw [hdim e he']
    split
    · exact le_rfl
    · exact le_rfl
  obtain ⟨-, hrank, hshape⟩ := shape_pad hw
  have hwshape : w.shape = z.shape := by
    refine eq_of_coord (hrank.trans hpads) fun e he => ?_
    have he' : e < z.shape.length := by rwa [hrank, hpads] at he
    rw [(hshape e (hpads.symm ▸ he')).2, hsize e he', Int.toNat_natCast]
  refine ⟨w, hw, same_of_read hwshape fun c hc => ?_⟩
  rw [hwshape] at hc
  obtain ⟨hfirst, hmiddle, hlast⟩ := read_framed hz hm hc
  obtain ⟨hinside, houtside⟩ := read_pad hw c
  by_cases hin : total d pre ≤ c d ∧ c d < total d pre + total d mids
  · rw [hmiddle hin.1 hin.2]
    refine hinside _ fun e he => ?_
    have he' : e < z.shape.length := hpads ▸ he
    rw [hdim e he', hm.coord_eq hz]
    split
    · rename_i hed
      rw [hed, update_self, PadDim.source_of_interior rfl]
      dsimp only
      rw [if_pos ⟨by omega, by omega⟩]
      exact congrArg some (by omega)
    · rename_i hed
      have hlt := hc e he'
      rw [update_of_ne hed, PadDim.source_of_interior rfl]
      dsimp only
      rw [if_pos ⟨by omega, by omega⟩]
      exact congrArg some (by omega)
  · rw [houtside ⟨d, hpads.symm ▸ hd, ?_⟩]
    · by_cases hlt : c d < total d pre
      · have hat := hfirst hlt
        rw [hpre c hc hlt] at hat
        exact (some.inj hat).symm
      · have hat := hlast (by omega)
        rw [hpost c hc (by omega)] at hat
        exact (some.inj hat).symm
    · rw [hdim d hd, if_pos rfl, hm.coord_eq hz, if_pos rfl, PadDim.source_of_interior rfl]
      dsimp only
      exact if_neg (by omega)

end

end Tensor
