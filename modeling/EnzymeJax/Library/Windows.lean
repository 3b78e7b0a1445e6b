import EnzymeJax.Library.Reduce
import EnzymeJax.Library.Reads

/-!
# Reductions of windows

A reduction of windows takes in the elements under each window, and as many copies of the init value as there are
positions of padding. If the init value is neutral, or there is no padding, only the elements count.
-/

namespace Tensor

open Finset Option Function
open List hiding mem_filter

variable {α : Type*}

/-- The element under position `w` of window `o`, if it is not padding. -/
def windowSource (ds : List WindowDim) (shape o w : List Nat) : Option (List Nat) :=
  allSome (List.zipWith (fun p q => p.1.source p.2 q.1 q.2) (List.zip ds shape) (List.zip o w))

def windowDim (ds : List WindowDim) (d : Nat) : WindowDim := ds.getD d ⟨1, 1, 1, 1, 0, 0⟩

def underWindow (ds : List WindowDim) (shape o : List Nat) : Finset (List Nat) :=
  (indices shape).filter fun p => ∃ w ∈ indices (ds.map WindowDim.window), windowSource ds shape o w = some p

/-- The reductions of the windows, the padding of which is the init value. -/
def reduceWindows (op : α → α → α) [Std.Commutative op] [Std.Associative op] (init : α) (ds : List WindowDim)
    (x : Tensor α) : Option (Tensor α) :=
  if ds.length = x.shape.length ∧ ∀ d ∈ ds, d.Ok then
    some ⟨List.zipWith WindowDim.numWindows ds x.shape, fun o =>
      (indices (ds.map WindowDim.window)).fold op init fun w => ((windowSource ds x.shape o w).map x.get).getD init⟩
  else none

section

variable {ds : List WindowDim} {shape o w w' p : List Nat} {d : Nat}

theorem windowDim_eq_getElem (hd : d < ds.length) : windowDim ds d = ds[d] := getD_eq_getElem _ _ hd

theorem windowSource_eq_some_iff (hds : ds.length = shape.length) (ho : o.length = shape.length)
    (hw : w.length = shape.length) : windowSource ds shape o w = some p ↔ p.length = shape.length ∧
      ∀ d < shape.length, (windowDim ds d).source (coord shape d) (coord o d) (coord w d) = some (coord p d) := by
  rw [windowSource, allSome_eq_some_iff]
  have hlen : (List.zipWith (fun p q => p.1.source p.2 q.1 q.2) (zip ds shape) (zip o w)).length =
      shape.length := by simp [hds, ho, hw]
  have hget : ∀ d (hd : d < shape.length), (List.zipWith (fun p q => p.1.source p.2 q.1 q.2) (zip ds shape)
      (zip o w)).get ⟨d, hlen.symm ▸ hd⟩ = (windowDim ds d).source (coord shape d) (coord o d) (coord w d) := by
    intro d hd
    rw [get_eq_getElem]
    rw [getElem_zipWith, getElem_zip, getElem_zip, windowDim_eq_getElem (hds.symm ▸ hd),
      coord_eq_getElem hd, coord_eq_getElem (ho.symm ▸ hd), coord_eq_getElem (hw.symm ▸ hd)]
  constructor
  · intro h
    have hp : p.length = shape.length := by rw [← hlen, h, length_map]
    refine ⟨hp, fun d hd => ?_⟩
    rw [← hget d hd, get_eq_getElem, coord_eq_getElem (hp.symm ▸ hd)]
    simp only [h, getElem_map]
  · rintro ⟨hp, hat⟩
    refine ext_getElem (by rw [hlen, length_map, hp]) fun d hd hd' => ?_
    have hd'' : d < shape.length := hlen ▸ hd
    rw [getElem_map, ← coord_eq_getElem (hp.symm ▸ hd'')]
    exact (hget d hd'').trans (hat d hd'')

theorem WindowDim.source_injective {d : WindowDim} (hd : d.Ok) {n o w w' i : Nat} (h : d.source n o w = some i)
    (h' : d.source n o w' = some i) : w = w' := by
  obtain ⟨-, -, hbase, hdilation⟩ := hd
  rw [WindowDim.source, PadDim.source_eq_some (by rw [WindowDim.padding]; dsimp only; omega)] at h h'
  have hmul : (w : Int) * d.windowDilation = w' * d.windowDilation := by omega
  exact_mod_cast Int.eq_of_mul_eq_mul_right (by omega) hmul

theorem windowSource_injOn (hok : ∀ d ∈ ds, d.Ok) (hds : ds.length = shape.length) (ho : o.length = shape.length)
    (hw : w.length = shape.length) (hw' : w'.length = shape.length) (h : windowSource ds shape o w = some p)
    (h' : windowSource ds shape o w' = some p) : w = w' := by
  obtain ⟨-, h⟩ := (windowSource_eq_some_iff hds ho hw).mp h
  obtain ⟨-, h'⟩ := (windowSource_eq_some_iff hds ho hw').mp h'
  refine eq_of_coord (hw.trans hw'.symm) fun d hd => ?_
  have hd' : d < shape.length := hw ▸ hd
  have hdim : (windowDim ds d).Ok := by
    rw [windowDim_eq_getElem (hds.symm ▸ hd')]
    exact hok _ (getElem_mem _)
  exact WindowDim.source_injective hdim (h d hd') (h' d hd')

theorem windowSource_mem (hds : ds.length = shape.length) (ho : o.length = shape.length)
    (hw : w.length = shape.length) (hok : ∀ d ∈ ds, d.Ok) (h : windowSource ds shape o w = some p) :
    p ∈ indices shape := by
  obtain ⟨hp, h⟩ := (windowSource_eq_some_iff hds ho hw).mp h
  refine mem_indices_iff.mpr ⟨hp, fun d hd => ?_⟩
  have hsrc := h d hd
  have hbase : 0 < (windowDim ds d).baseDilation := by
    rw [windowDim_eq_getElem (hds.symm ▸ hd)]
    exact (hok _ (getElem_mem _)).2.2.1
  rw [WindowDim.source, PadDim.source_eq_some (by rw [WindowDim.padding]; dsimp only; omega)] at hsrc
  exact hsrc.1

end

/-! ### The elements under a window -/

section

variable (op : α → α → α) [Std.Commutative op] [Std.Associative op] {ds : List WindowDim} {shape o : List Nat}
  {init a : α} {f : List Nat → α}

theorem fold_source {windows under : Finset (List Nat)} {source : List Nat → Option (List Nat)}
    (hunder : ∀ p, p ∈ under ↔ ∃ w ∈ windows, source w = some p)
    (hinj : ∀ w ∈ windows, ∀ w' ∈ windows, ∀ p, source w = some p → source w' = some p → w = w')
    (h : (∀ a, op init a = a) ∨ ∀ w ∈ windows, source w ≠ none) :
    windows.fold op init (fun w => ((source w).map f).getD init) = under.fold op init f := by
  let elements := windows.filter fun w => source w ≠ none
  have hsplit : windows.filter (fun w => ¬source w ≠ none) ∪ elements = windows := by
    rw [union_comm]
    exact filter_union_filter_not_eq _ _
  have hdisjoint : Disjoint (windows.filter fun w => ¬source w ≠ none) elements :=
    (disjoint_filter_filter_not _ _ _).symm
  have hpadding : ∀ b, (windows.filter fun w => ¬source w ≠ none).fold op b
      (fun w => ((source w).map f).getD init) = absorb op init (windows.filter fun w => ¬source w ≠ none).card b := by
    intro b
    rw [← fold_const_eq]
    refine fold_congr fun w hw => ?_
    rw [not_not.mp (mem_filter.mp hw).2]
    rfl
  have helements : elements.fold op init (fun w => ((source w).map f).getD init) = under.fold op init f := by
    have himage : under = elements.image fun w => (source w).getD [] := by
      ext p
      rw [hunder, mem_image]
      constructor
      · rintro ⟨w, hw, hsrc⟩
        refine ⟨w, mem_filter.mpr ⟨hw, by rw [hsrc]; exact some_ne_none p⟩, ?_⟩
        rw [hsrc, getD_some]
      · rintro ⟨w, hw, rfl⟩
        obtain ⟨hw, hsome⟩ := mem_filter.mp hw
        obtain ⟨p, hp⟩ := ne_none_iff_exists'.mp hsome
        rw [hp, getD_some]
        exact ⟨w, hw, hp⟩
    rw [himage, fold_image]
    · refine fold_congr fun w hw => ?_
      obtain ⟨p, hp⟩ := ne_none_iff_exists'.mp (mem_filter.mp hw).2
      rw [comp_apply, hp, map_some, getD_some, getD_some]
    · intro w hw w' hw' heq
      obtain ⟨hw, hsome⟩ := mem_filter.mp hw
      obtain ⟨hw', hsome'⟩ := mem_filter.mp hw'
      obtain ⟨p, hp⟩ := ne_none_iff_exists'.mp hsome
      obtain ⟨p', hp'⟩ := ne_none_iff_exists'.mp hsome'
      beta_reduce at heq
      rw [hp, hp', getD_some, getD_some] at heq
      rw [← heq] at hp'
      exact hinj w hw w' hw' p hp hp'
  rw [← hsplit, fold_union op hdisjoint, hpadding, absorb_fold, ← helements]
  refine congrArg (fun b => elements.fold op b _) ?_
  rcases h with hneutral | hnone
  · exact iterate_fixed (hneutral init) _
  · rw [filter_false_of_mem fun w hw => not_not.mpr (hnone w hw), card_empty]
    rfl

theorem fold_window (hok : ∀ d ∈ ds, d.Ok) (hds : ds.length = shape.length) (ho : o.length = shape.length)
    (h : (∀ a, op init a = a) ∨ ∀ w ∈ indices (ds.map WindowDim.window), windowSource ds shape o w ≠ none) :
    (indices (ds.map WindowDim.window)).fold op init (fun w => ((windowSource ds shape o w).map f).getD init) =
      (underWindow ds shape o).fold op init f := by
  have hlen : ∀ w ∈ indices (ds.map WindowDim.window), w.length = shape.length := fun w hw => by
    rw [length_of_mem_indices hw, length_map, hds]
  refine fold_source op (fun p => ?_) (fun w hw w' hw' p hp hp' => ?_) h
  · rw [underWindow, mem_filter]
    constructor
    · exact And.right
    · rintro ⟨w, hw, hp⟩
      exact ⟨windowSource_mem hds ho (hlen w hw) hok hp, w, hw, hp⟩
  · exact windowSource_injOn hok hds ho (hlen w hw) (hlen w' hw') hp hp'

theorem fold_mark (hneutral : ∀ a, op init a = a) (s : Finset (List Nat)) (q : List Nat) :
    s.fold op init (fun p => if p = q then a else init) = if q ∈ s then a else init := by
  have hrest : ∀ t : Finset (List Nat), q ∉ t → t.fold op init (fun p => if p = q then a else init) = init := by
    intro t hq
    have hconst : t.fold op init (fun p => if p = q then a else init) = t.fold op init fun _ => init :=
      fold_congr fun p hp => if_neg fun heq : p = q => hq (heq ▸ hp)
    rw [hconst, fold_const_eq]
    exact iterate_fixed (hneutral init) _
  split
  · rename_i hq
    rw [← insert_erase hq, fold_insert (notMem_erase q s), hrest _ (notMem_erase q s), if_pos rfl,
      show op (a) init = op init a from Std.Commutative.comm _ _, hneutral]
  · rename_i hq
    exact hrest s hq

end

/-! ### Windows without strides or dilations -/

namespace WindowDim

/-- The windows are at all positions. -/
def Unit (d : WindowDim) : Prop := d.stride = 1 ∧ d.baseDilation = 1 ∧ d.windowDilation = 1

variable {d : WindowDim} {n o w i : Nat}

theorem source_of_unit (hd : d.Unit) : d.source n o w = some i ↔ i < n ∧ (o : Int) + w = i + d.padLow := by
  obtain ⟨hstride, hbase, hdilation⟩ := hd
  rw [WindowDim.source, PadDim.source_eq_some (by rw [padding, hbase]; exact le_rfl), hstride, hdilation, padding,
    hbase]
  dsimp only
  push_cast
  omega

theorem numWindows_of_unit (hd : d.Unit) (hwindow : 0 < d.window) :
    d.numWindows n = (d.padLow + n + d.padHigh - d.window + 1).toNat := by
  obtain ⟨hstride, hbase, hdilation⟩ := hd
  rw [numWindows, dilatedWindow, padding, hstride, hbase, hdilation, PadDim.size_of_interior rfl]
  dsimp only
  split
  · omega
  · push_cast
    omega

end WindowDim

theorem mem_underWindow {ds : List WindowDim} {shape o p : List Nat} (hds : ds.length = shape.length)
    (ho : o.length = shape.length) (hunit : ∀ d < shape.length, (windowDim ds d).Unit) :
    p ∈ underWindow ds shape o ↔ p ∈ indices shape ∧ ∀ d < shape.length,
      (coord o d : Int) ≤ coord p d + (windowDim ds d).padLow ∧
        coord p d + (windowDim ds d).padLow < coord o d + (windowDim ds d).window := by
  rw [underWindow, mem_filter]
  refine and_congr_right fun hp => ?_
  have hplength := length_of_mem_indices hp
  have hwindows : (ds.map WindowDim.window).length = shape.length := by rw [length_map, hds]
  have hwindow : ∀ d < shape.length, coord (ds.map WindowDim.window) d = (windowDim ds d).window := by
    intro d hd
    rw [coord_map _ _ (hds.symm ▸ hd), windowDim_eq_getElem (hds.symm ▸ hd)]
  constructor
  · rintro ⟨w, hw, hsrc⟩ d hd
    obtain ⟨-, hat⟩ := (windowSource_eq_some_iff hds ho ((length_of_mem_indices hw).trans hwindows)).mp hsrc
    obtain ⟨-, heq⟩ := (WindowDim.source_of_unit (hunit d hd)).mp (hat d hd)
    have hlt := coord_lt hw (hwindows.symm ▸ hd)
    rw [hwindow d hd] at hlt
    omega
  · intro hin
    let w := (List.range shape.length).map fun d => (coord p d + (windowDim ds d).padLow - coord o d).toNat
    have hwlength : w.length = shape.length := by simp [w]
    have hwcoord : ∀ d < shape.length, coord w d = (coord p d + (windowDim ds d).padLow - coord o d).toNat :=
      fun d hd => coord_map_range _ hd
    refine ⟨w, ?_, (windowSource_eq_some_iff hds ho hwlength).mpr ⟨hplength, fun d hd => ?_⟩⟩
    · refine mem_indices_iff.mpr ⟨hwlength.trans hwindows.symm, fun d hd => ?_⟩
      have hd' : d < shape.length := hwindows ▸ hd
      obtain ⟨hlow, hhigh⟩ := hin d hd'
      rw [hwcoord d hd', hwindow d hd']
      omega
    · obtain ⟨hlow, hhigh⟩ := hin d hd
      rw [WindowDim.source_of_unit (hunit d hd), hwcoord d hd]
      exact ⟨coord_lt hp hd, by omega⟩

/-! ### Reading a reduction of windows -/

section

variable {f : α → α → α} [Std.Commutative f] [Std.Associative f] {init : α} {ds : List WindowDim} {x y : Tensor α}
  {c : Nat → Nat}

theorem shape_reduceWindows (h : reduceWindows f init ds x = some y) : ds.length = x.shape.length ∧
    (∀ d ∈ ds, d.Ok) ∧ y.shape.length = x.shape.length ∧
      ∀ d < x.shape.length, coord y.shape d = (windowDim ds d).numWindows (coord x.shape d) := by
  obtain ⟨⟨hds, hok⟩, h⟩ := ite_none_right_eq_some.mp h
  cases h
  refine ⟨hds, hok, by rw [length_zipWith, hds, min_self], fun d hd => ?_⟩
  rw [coord_eq_getElem (by simp [hds, hd]), getElem_zipWith, windowDim_eq_getElem (hds.symm ▸ hd), coord_eq_getElem hd]

theorem exists_reduceWindows (f : α → α → α) [Std.Commutative f] [Std.Associative f] (init : α)
    (hds : ds.length = x.shape.length) (hok : ∀ d ∈ ds, d.Ok) : ∃ y, reduceWindows f init ds x = some y :=
  ⟨_, if_pos ⟨hds, hok⟩⟩

theorem read_underWindow (h : reduceWindows f init ds x = some y) (hpadding : (∀ a, f init a = a) ∨
    ∀ w ∈ indices (ds.map WindowDim.window), windowSource ds x.shape ((List.range x.shape.length).map c) w ≠ none) :
    y.read c = (underWindow ds x.shape ((List.range x.shape.length).map c)).fold f init x.get := by
  obtain ⟨hds, hok, hlen, -⟩ := shape_reduceWindows h
  rw [← fold_window f hok hds (by simp) hpadding, Tensor.read, hlen]
  obtain ⟨-, h⟩ := ite_none_right_eq_some.mp h
  cases h
  rfl

theorem read_windows (h : reduceWindows f init ds x = some y) (hunit : ∀ d < x.shape.length, (windowDim ds d).Unit)
    (hlow : ∀ d < x.shape.length, (windowDim ds d).padLow = 0)
    (hc : ∀ d < x.shape.length, c d + (windowDim ds d).window ≤ coord x.shape d) :
    y.read c = (indices (ds.map WindowDim.window)).fold f init fun w => x.read fun d => c d + coord w d := by
  obtain ⟨hds, -, hlen, -⟩ := shape_reduceWindows h
  have hsrc : ∀ w ∈ indices (ds.map WindowDim.window), windowSource ds x.shape
      ((List.range x.shape.length).map c) w = some ((List.range x.shape.length).map fun d => c d + coord w d) := by
    intro w hw
    refine (windowSource_eq_some_iff hds (by simp) ?_).mpr ⟨by simp, fun d hd => ?_⟩
    · rw [length_of_mem_indices hw, length_map, hds]
    · have hlt := coord_lt hw (d := d) (by rwa [length_map, hds])
      rw [coord_map _ _ (hds.symm ▸ hd), ← windowDim_eq_getElem] at hlt
      have hin := hc d hd
      rw [WindowDim.source_of_unit (hunit d hd), hlow d hd, coord_map_range _ hd, coord_map_range _ hd]
      exact ⟨by omega, by push_cast; omega⟩
  have hread : y.read c = (indices (ds.map WindowDim.window)).fold f init fun w =>
      ((windowSource ds x.shape ((List.range x.shape.length).map c) w).map x.get).getD init := by
    rw [Tensor.read, hlen]
    obtain ⟨-, h⟩ := ite_none_right_eq_some.mp h
    cases h
    rfl
  rw [hread]
  refine Finset.fold_congr fun w hw => ?_
  rw [hsrc w hw]
  rfl

end

/-! ### Reading a reduction -/

section

variable {f : α → α → α} [Std.Commutative f] [Std.Associative f] {init : α} {dims : List Nat} {x y z : Tensor α}
  {c : Nat → Nat}

theorem dropDims_eq_iff {l l' : List Nat} (h : l.length = l'.length) :
    dropDims dims 0 l = dropDims dims 0 l' ↔ ∀ d < l.length, d ∉ dims → coord l d = coord l' d := by
  rw [dropDims_eq_map, dropDims_eq_map, ← h, map_inj_left]
  refine forall_congr' fun d => ?_
  rw [List.mem_filter, List.mem_range, Nat.zero_add, decide_eq_true_iff, and_imp]

theorem read_reduce (hy : reduce f init dims x = some y)
    (hz : reshape (x.shape.mapIdx fun i n => if 0 + i ∈ dims then 1 else n) y = some z) (hc : Within z.shape c) :
    z.read c = ((indices x.shape).filter fun p =>
      ∀ d < x.shape.length, d ∉ dims → coord p d = c d).fold f init x.get := by
  obtain ⟨-, hy⟩ := ite_none_right_eq_some.mp hy
  cases hy
  have hzshape : z.shape = x.shape.mapIdx fun i n => if 0 + i ∈ dims then 1 else n := by
    obtain ⟨-, hz⟩ := ite_none_right_eq_some.mp hz
    cases hz
    rfl
  have hidx := hc.mem_indices
  rw [hzshape] at hidx
  obtain ⟨hmem, hravel⟩ := ravel_dropDims hidx
  rw [Tensor.read, hzshape, reshape_get_of_ravel_eq hz hmem hravel]
  change Finset.fold f init x.get ((indices x.shape).filter fun p => _) = _
  congr 1
  refine filter_congr fun p hp => ?_
  have hplength := length_of_mem_indices hp
  rw [dropDims_eq_iff (by simp [hplength]), hplength]
  refine forall₃_congr fun d hd _ => ?_
  rw [coord_map_range _ (by simpa using hd)]

theorem exists_reduce (f : α → α → α) [Std.Commutative f] [Std.Associative f] (init : α) (hnodup : dims.Nodup)
    (hdims : ∀ d ∈ dims, d < x.shape.length) : ∃ y z, reduce f init dims x = some y ∧
      reshape (x.shape.mapIdx fun i n => if 0 + i ∈ dims then 1 else n) y = some z :=
  ⟨_, _, if_pos ⟨hnodup, hdims⟩, if_pos (prod_dropDims dims 0 x.shape)⟩

end

end Tensor
