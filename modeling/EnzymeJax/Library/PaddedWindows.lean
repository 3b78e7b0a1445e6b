import EnzymeJax.Library.Convolution

/-!
# Windows over padded tensors

A window over a padded tensor covers an element at the place that the low padding moves it to, before the tensor is
dilated. The windows over the tensor itself have to cover the same elements.
-/

namespace Tensor

open Finset Option
open List hiding mem_filter

theorem WindowDim.source_eq_some {d : WindowDim} (hbase : 0 < d.baseDilation) {n o w i : Nat} :
    d.source n o w = some i ↔ i < n ∧ (o * d.stride + w * d.windowDilation : Int) = d.padLow + i * d.baseDilation := by
  rw [WindowDim.source, PadDim.source_eq_some (by rw [WindowDim.padding]; dsimp only; omega), WindowDim.padding]
  dsimp only
  rw [sub_add_cancel]

/-- Position `w` of window `o` is at the element `p` of the tensor, where the tensor is padded first. -/
def CoversPadded (ds : List WindowDim) (pads : List PadDim) (shape o w p : List Nat) : Prop :=
  ∀ d < shape.length, 0 ≤ (padDim pads d).low + coord p d ∧
    (padDim pads d).low + coord p d < (padDim pads d).low + coord shape d + (padDim pads d).high ∧
      (coord o d * (windowDim ds d).stride + coord w d * (windowDim ds d).windowDilation : Int) =
        (windowDim ds d).padLow + ((padDim pads d).low + coord p d) * (windowDim ds d).baseDilation

/-- Position `w` of window `o` is at the element `p` of the tensor. -/
def Covers (ds : List WindowDim) (shape o w p : List Nat) : Prop :=
  ∀ d < shape.length, (coord o d * (windowDim ds d).stride + coord w d * (windowDim ds d).windowDilation : Int) =
    (windowDim ds d).padLow + coord p d * (windowDim ds d).baseDilation

instance (ds : List WindowDim) (pads : List PadDim) (shape o w p : List Nat) :
    Decidable (CoversPadded ds pads shape o w p) := inferInstanceAs (Decidable (∀ d < shape.length, _))

instance (ds : List WindowDim) (shape o w p : List Nat) : Decidable (Covers ds shape o w p) :=
  inferInstanceAs (Decidable (∀ d < shape.length, _))

section

variable {α : Type*} {ds ds' : List WindowDim} {pads : List PadDim} {shape o w p q : List Nat} {v : α}
  {g gp : List Nat → α}

theorem coord_numWindows (hds : ds.length = shape.length) {d : Nat} (hd : d < shape.length) :
    coord (List.zipWith WindowDim.numWindows ds shape) d = (windowDim ds d).numWindows (coord shape d) := by
  rw [coord_eq_getElem (by simp [hds, hd]), getElem_zipWith, windowDim_eq_getElem (hds.symm ▸ hd), coord_eq_getElem hd]

theorem base_pos (hds : ds.length = shape.length) (hok : ∀ d ∈ ds, d.Ok) {d : Nat} (hd : d < shape.length) :
    0 < (windowDim ds d).baseDilation := by
  rw [windowDim_eq_getElem (hds.symm ▸ hd)]
  exact (hok _ (getElem_mem _)).2.2.1

theorem windowSource_iff_covers (hds : ds.length = shape.length) (hok : ∀ d ∈ ds, d.Ok) (ho : o.length = shape.length)
    (hw : w.length = shape.length) : windowSource ds shape o w = some p ↔
      p ∈ indices shape ∧ Covers ds shape o w p := by
  rw [windowSource_eq_some_iff hds ho hw, mem_indices_iff, Covers, and_assoc]
  refine and_congr_right fun hp => ?_
  rw [← forall₂_and]
  exact forall₂_congr fun d hd => WindowDim.source_eq_some (base_pos hds hok hd)

/-- A padded tensor has the elements of the tensor behind the low padding, and the padding elsewhere. -/
structure EdgePads (pads : List PadDim) (shape : List Nat) (v : α) (g gp : List Nat → α) : Prop where
  inside : ∀ p q, p ∈ indices shape → q.length = shape.length →
    (∀ d < shape.length, (coord q d : Int) = (padDim pads d).low + coord p d) → gp q = g p
  outside : ∀ q, q.length = shape.length → (∃ d < shape.length,
    ¬(0 ≤ (coord q d : Int) - (padDim pads d).low ∧ (coord q d : Int) - (padDim pads d).low < coord shape d)) → gp q = v

section

variable (h : EdgePads pads shape v g gp) (hpads : pads.length = shape.length)
  (hedge : ∀ e ∈ pads, e.interior = 0) (hds : ds.length = shape.length) (hok : ∀ d ∈ ds, d.Ok)
  (ho : o.length = shape.length) (hw : w.length = shape.length)

include h hpads hedge hds hok ho hw

theorem tap_of_covers (hp : p ∈ indices shape) (hcovers : CoversPadded ds pads shape o w p) :
    ((windowSource ds (edgePadded pads shape) o w).map gp).getD v = g p := by
  have hlen := length_edgePadded hpads
  let q := (List.range shape.length).map fun d => ((padDim pads d).low + coord p d).toNat
  have hq : ∀ d < shape.length, coord q d = ((padDim pads d).low + coord p d).toNat := fun d hd => coord_map_range _ hd
  have hqlength : q.length = shape.length := by simp [q]
  have hsrc : windowSource ds (edgePadded pads shape) o w = some q := by
    refine (windowSource_iff_covers (hds.trans hlen.symm) hok (ho.trans hlen.symm)
      (hw.trans hlen.symm)).mpr ⟨mem_indices_iff.mpr ⟨hqlength.trans hlen.symm, fun d hd => ?_⟩, fun d hd => ?_⟩
    · rw [hlen] at hd
      obtain ⟨hlow, hhigh, -⟩ := hcovers d hd
      rw [hq d hd, coord_edgePadded hpads hedge hd]
      omega
    · rw [hlen] at hd
      obtain ⟨hlow, -, heq⟩ := hcovers d hd
      rw [hq d hd, Int.toNat_of_nonneg hlow]
      exact heq
  rw [hsrc, map_some, getD_some]
  refine h.inside p q hp hqlength fun d hd => ?_
  rw [hq d hd, Int.toNat_of_nonneg (hcovers d hd).1]

theorem tap_of_not_covers (hcovers : ∀ p ∈ indices shape, ¬CoversPadded ds pads shape o w p) :
    ((windowSource ds (edgePadded pads shape) o w).map gp).getD v = v := by
  have hlen := length_edgePadded hpads
  cases hsrc : windowSource ds (edgePadded pads shape) o w with
  | none => rfl
  | some q =>
    obtain ⟨hq, hat⟩ := (windowSource_iff_covers (hds.trans hlen.symm) hok (ho.trans hlen.symm)
      (hw.trans hlen.symm)).mp hsrc
    have hqlength : q.length = shape.length := (length_of_mem_indices hq).trans hlen
    refine h.outside q hqlength ?_
    -- otherwise the position is at the element that is moved to `q`
    by_contra hinside
    push Not at hinside
    let p := (List.range shape.length).map fun d => ((coord q d : Int) - (padDim pads d).low).toNat
    have hp : ∀ d < shape.length, (coord p d : Int) = coord q d - (padDim pads d).low := fun d hd => by
      rw [coord_map_range _ hd, Int.toNat_of_nonneg (hinside d hd).1]
    refine hcovers p (mem_indices_iff.mpr ⟨by simp [p], fun d hd => ?_⟩) fun d hd => ?_
    · have hlt := (hinside d hd).2
      have heq := hp d hd
      omega
    · have hlt := coord_lt hq (hlen.symm ▸ hd)
      rw [coord_edgePadded hpads hedge hd] at hlt
      have heq := hp d hd
      have hsum : (padDim pads d).low + coord p d = coord q d := by omega
      rw [hsum]
      exact ⟨by omega, by omega, hat d (hlen.symm ▸ hd)⟩

end

/-- The element at position `w` of window `o`, where the tensor is padded first. -/
noncomputable def paddedSource (ds : List WindowDim) (pads : List PadDim) (shape o w : List Nat) : Option (List Nat) :=
  if h : ∃ p ∈ indices shape, CoversPadded ds pads shape o w p then some h.choose else none

theorem paddedSource_eq_some (hds : ds.length = shape.length) (hok : ∀ d ∈ ds, d.Ok) :
    paddedSource ds pads shape o w = some p ↔ p ∈ indices shape ∧ CoversPadded ds pads shape o w p := by
  have hunique : ∀ p p', p ∈ indices shape → p' ∈ indices shape → CoversPadded ds pads shape o w p →
      CoversPadded ds pads shape o w p' → p = p' := by
    intro p p' hp hp' hcovers hcovers'
    have hlen := length_of_mem_indices hp
    refine eq_of_coord (hlen.trans (length_of_mem_indices hp').symm) fun d hd => ?_
    have hd' : d < shape.length := hlen ▸ hd
    have hbase := base_pos hds hok hd'
    have heq := (hcovers d hd').2.2.symm.trans (hcovers' d hd').2.2
    have hmul := Int.eq_of_mul_eq_mul_right (by omega) (Int.add_left_cancel heq)
    omega
  rw [paddedSource]
  constructor
  · intro h
    split at h
    · rename_i hex
      cases h
      exact hex.choose_spec
    · cases h
  · rintro ⟨hp, hcovers⟩
    have hex : ∃ p ∈ indices shape, CoversPadded ds pads shape o w p := ⟨p, hp, hcovers⟩
    rw [dif_pos hex, hunique _ _ hex.choose_spec.1 hp hex.choose_spec.2 hcovers]

theorem tap_padded (h : EdgePads pads shape v g gp) (hpads : pads.length = shape.length)
    (hedge : ∀ e ∈ pads, e.interior = 0) (hds : ds.length = shape.length) (hok : ∀ d ∈ ds, d.Ok)
    (ho : o.length = shape.length) (hw : w.length = shape.length) :
    ((windowSource ds (edgePadded pads shape) o w).map gp).getD v =
      ((paddedSource ds pads shape o w).map g).getD v := by
  cases hsrc : paddedSource ds pads shape o w with
  | none =>
    refine tap_of_not_covers h hpads hedge hds hok ho hw fun p hp hcovers => ?_
    rw [(paddedSource_eq_some hds hok).mpr ⟨hp, hcovers⟩] at hsrc
    cases hsrc
  | some p =>
    obtain ⟨hp, hcovers⟩ := (paddedSource_eq_some hds hok).mp hsrc
    exact tap_of_covers h hpads hedge hds hok ho hw hp hcovers

theorem paddedSource_eq_windowSource (hds : ds.length = shape.length) (hds' : ds'.length = shape.length)
    (hok : ∀ d ∈ ds, d.Ok) (hok' : ∀ d ∈ ds', d.Ok) (ho : o.length = shape.length) (hw : w.length = shape.length) :
    paddedSource ds pads shape o w = windowSource ds' shape o w ↔
      ∀ p ∈ indices shape, CoversPadded ds pads shape o w p ↔ Covers ds' shape o w p := by
  have hiff : ∀ p, paddedSource ds pads shape o w = some p ↔ p ∈ indices shape ∧ CoversPadded ds pads shape o w p :=
    fun p => paddedSource_eq_some hds hok
  have hiff' : ∀ p, windowSource ds' shape o w = some p ↔ p ∈ indices shape ∧ Covers ds' shape o w p :=
    fun p => windowSource_iff_covers hds' hok' ho hw
  constructor
  · intro heq p hp
    have hat := hiff p
    rw [heq, hiff' p] at hat
    exact ⟨fun h => (hat.mpr ⟨hp, h⟩).2, fun h => (hat.mp ⟨hp, h⟩).2⟩
  · intro hsame
    refine ext fun p => ?_
    rw [hiff, hiff']
    exact and_congr_right fun hp => hsame p hp

def underPadded (ds : List WindowDim) (pads : List PadDim) (shape o : List Nat) : Finset (List Nat) :=
  (indices shape).filter fun p => ∃ w ∈ indices (ds.map WindowDim.window), CoversPadded ds pads shape o w p

theorem fold_padded (f : α → α → α) [Std.Commutative f] [Std.Associative f] (h : EdgePads pads shape v g gp)
    (hneutral : ∀ a, f v a = a) (hpads : pads.length = shape.length) (hedge : ∀ e ∈ pads, e.interior = 0)
    (hds : ds.length = shape.length) (hok : ∀ d ∈ ds, d.Ok) (ho : o.length = shape.length) :
    (indices (ds.map WindowDim.window)).fold f v
        (fun w => ((windowSource ds (edgePadded pads shape) o w).map gp).getD v) =
      (underPadded ds pads shape o).fold f v g := by
  have hlen : ∀ w ∈ indices (ds.map WindowDim.window), w.length = shape.length := fun w hw => by
    rw [length_of_mem_indices hw, length_map, hds]
  rw [fold_congr fun w hw => tap_padded h hpads hedge hds hok ho (hlen w hw)]
  refine fold_source f (fun p => ?_) (fun w hw w' hw' p hp hp' => ?_) (.inl hneutral)
  · rw [underPadded, mem_filter]
    constructor
    · rintro ⟨hp, w, hw, hcovers⟩
      exact ⟨w, hw, (paddedSource_eq_some hds hok).mpr ⟨hp, hcovers⟩⟩
    · rintro ⟨w, hw, hsrc⟩
      obtain ⟨hp, hcovers⟩ := (paddedSource_eq_some hds hok).mp hsrc
      exact ⟨hp, w, hw, hcovers⟩
  · obtain ⟨-, hcovers⟩ := (paddedSource_eq_some hds hok).mp hp
    obtain ⟨-, hcovers'⟩ := (paddedSource_eq_some hds hok).mp hp'
    refine eq_of_coord ((hlen w hw).trans (hlen w' hw').symm) fun d hd => ?_
    have hd' : d < shape.length := hlen w hw ▸ hd
    have hdilation : 0 < (windowDim ds d).windowDilation := by
      rw [windowDim_eq_getElem (hds.symm ▸ hd')]
      exact (hok _ (getElem_mem _)).2.2.2
    have heq := Int.add_left_cancel ((hcovers d hd').2.2.trans (hcovers' d hd').2.2.symm)
    exact_mod_cast Int.eq_of_mul_eq_mul_right (by omega) heq

theorem edgePads_of_pad {x y : Tensor α} (h : pad pads v x = some y) (hedge : ∀ e ∈ pads, e.interior = 0) :
    EdgePads pads x.shape v x.get y.get := by
  obtain ⟨hpads, hrank, -⟩ := shape_pad h
  have hread : ∀ q : List Nat, q.length = x.shape.length → y.get q = y.read (coord q) := fun q hq => by
    rw [Tensor.read, map_coord_range (hq.trans (hpads.symm.trans hrank.symm))]
  have hsrc : ∀ d < pads.length, ∀ q : Nat, (padDim pads d).source (coord x.shape d) q =
      if 0 ≤ (q : Int) - (padDim pads d).low ∧ (q : Int) - (padDim pads d).low < coord x.shape d then
        some ((q : Int) - (padDim pads d).low).toNat else none := fun d hd q =>
    PadDim.source_of_interior (by rw [padDim_eq_getElem hd]; exact hedge _ (getElem_mem hd))
  refine ⟨fun p q hp hq hat => ?_, fun q hq hout => ?_⟩
  · rw [hread q hq, ← read_coord x hp]
    refine (read_pad h _).1 (coord p) fun d hd => ?_
    have heq := hat d (hpads ▸ hd)
    have hlt := coord_lt hp (hpads ▸ hd)
    rw [hsrc d hd, if_pos ⟨by omega, by omega⟩]
    exact congrArg some (by omega)
  · rw [hread q hq]
    obtain ⟨d, hd, hout⟩ := hout
    exact (read_pad h _).2 ⟨d, hpads.symm ▸ hd, by rw [hsrc d (hpads.symm ▸ hd), if_neg hout]⟩

theorem WindowDim.position_lt {d : WindowDim} (hd : d.Ok) {n o w : Nat} (ho : o < d.numWindows n) (hw : w < d.window) :
    (o * d.stride + w * d.windowDilation : Int) < d.padding.size n := by
  obtain ⟨-, hstride, -, hdilation⟩ := hd
  rw [WindowDim.numWindows] at ho
  split at ho
  · exact absurd ho (Nat.not_lt_zero _)
  · rename_i hfit
    have hlast : (o : Int) ≤ (d.padding.size n - d.dilatedWindow) / d.stride := by omega
    have hmul := Int.mul_le_of_le_ediv (by omega) hlast
    have hwindow : (w : Int) * d.windowDilation ≤ ((d.window - 1 : Nat) : Int) * d.windowDilation :=
      mul_le_mul_of_nonneg_right (by omega) (by omega)
    rw [WindowDim.dilatedWindow] at hmul
    omega

end

end Tensor
