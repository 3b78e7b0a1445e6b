import EnzymeJax.Library.Indexed

/-!
# Updates over updates

Two updates of a tensor, one over the other, differ in one dimension only. An update with a tensor made of the two is
the same if and only if its elements come from the same places along it, provided that there are any elements in
the other dimensions.
-/

namespace Tensor

open List

variable {α : Type*}

/-- Where an element comes from, with the position along the dimension. -/
inductive Source
  | newer (k : Nat)
  | older (k : Nat)
  | operand
  deriving DecidableEq

namespace Source

/-- The element, if `idx` are the other coordinates and `a` is that of the operand. -/
def read (d : Nat) (u v : Tensor α) (idx : List Nat) (a : α) : Source → α
  | newer k => u.get (idx.set d k)
  | older k => v.get (idx.set d k)
  | operand => a

/-- The newer update starts at `c` and has extent `m`, the older one starts at `c'` and has extent `n`. -/
def layered (c m c' n k : Nat) : Source :=
  if c ≤ k ∧ k < c + m then newer (k - c)
  else if c' ≤ k ∧ k < c' + n then older (k - c')
  else operand

/-- One update that starts at `c` and has extent `m` and the elements `σ`. -/
def merged (c m : Nat) (σ : Nat → Source) (k : Nat) : Source :=
  if c ≤ k ∧ k < c + m then σ (k - c) else operand

end Source

/-! ### Regions that differ in one dimension -/

section

variable {d c m : Nat} {starts sizes idx shape : List Nat}

/-- The index is in the region but for dimension `d`. -/
def InRegionOff (d : Nat) (starts sizes idx : List Nat) : Prop :=
  ∀ e < idx.length, e ≠ d → coord starts e ≤ coord idx e ∧ coord idx e - coord starts e < coord sizes e

theorem coord_set_of_ne {l : List Nat} {e : Nat} (h : e ≠ d) (k : Nat) :
    coord (l.set d k) e = coord l e := by
  rw [coord, coord, getD_eq_getElem?_getD, getD_eq_getElem?_getD, getElem?_set_ne h.symm]

theorem inRegion_set_iff (hd : d < idx.length) (hstarts : starts.length = idx.length)
    (hsizes : sizes.length = idx.length) : InRegion (starts.set d c) (sizes.set d m) idx ↔
      InRegionOff d starts sizes idx ∧ c ≤ coord idx d ∧ coord idx d < c + m := by
  have hc : coord (starts.set d c) d = c := coord_set_self (hstarts.symm ▸ hd) c
  have hm : coord (sizes.set d m) d = m := coord_set_self (hsizes.symm ▸ hd) m
  constructor
  · intro h
    refine ⟨fun e he hne => ?_, ?_⟩
    · have hin := h e he
      rwa [coord_set_of_ne hne, coord_set_of_ne hne] at hin
    · have hin := h d hd
      rw [hc, hm] at hin
      omega
  · intro ⟨hoff, hle, hlt⟩ e he
    by_cases hed : e = d
    · subst hed
      rw [hc, hm]
      omega
    · rw [coord_set_of_ne hed, coord_set_of_ne hed]
      exact hoff e he hed

theorem zipWith_sub_set (hstarts : starts.length = idx.length) :
    List.zipWith (· - ·) idx (starts.set d c) = (List.zipWith (· - ·) idx starts).set d (coord idx d - c) := by
  refine ext_getElem (by simp [hstarts]) fun e he he' => ?_
  have he'' : e < idx.length := by simpa [hstarts] using he
  rw [getElem_zipWith, getElem_set, getElem_set, getElem_zipWith]
  split
  · rename_i hde
    subst hde
    rw [coord_eq_getElem he'']
  · rfl

theorem clampStarts_set {starts : List Int} {a : Int} :
    zipWith3 clampStart shape (sizes.set d m) (starts.set d a) =
      (zipWith3 clampStart shape sizes starts).set d (clampStart (coord shape d) m a) := by
  induction shape generalizing d sizes starts with
  | nil => rfl
  | cons n shape ih =>
    cases sizes with
    | nil => cases d <;> rfl
    | cons size sizes =>
      cases starts with
      | nil => cases d <;> rfl
      | cons start starts =>
        cases d with
        | zero => rfl
        | succ d =>
          rw [set_cons_succ, set_cons_succ, zipWith3, ih, zipWith3,
            set_cons_succ]
          rfl

theorem sub_mem_indices_set (hstarts : starts.length = idx.length) (hsizes : sizes.length = idx.length)
    (hoff : InRegionOff d starts sizes idx) :
    (List.zipWith (· - ·) idx starts).set d 0 ∈ indices (sizes.set d 1) := by
  rw [mem_indices_iff, length_set, length_set, length_zipWith, hstarts, min_self]
  refine ⟨hsizes.symm, fun e he => ?_⟩
  have he' : e < idx.length := hsizes ▸ he
  by_cases hed : e = d
  · subst hed
    rw [coord_set_self (by simpa [hstarts] using he'), coord_set_self he]
    exact zero_lt_one
  · have hzip : e < (List.zipWith (· - ·) idx starts).length := by simpa [hstarts] using he'
    rw [coord_set_of_ne hed, coord_set_of_ne hed, coord_eq_getElem hzip, getElem_zipWith,
      ← coord_eq_getElem he', ← coord_eq_getElem (hstarts.symm ▸ he')]
    exact (hoff e he' hed).2

theorem clampStarts_zero (shape : List Nat) :
    zipWith3 clampStart shape shape (replicate shape.length 0) = replicate shape.length 0 := by
  induction shape with
  | nil => rfl
  | cons n shape ih =>
    have hclamp : clampStart n n 0 = 0 := clampStart_eq 0 (zero_add _).le
    rw [length_cons, replicate_succ, zipWith3, hclamp, ih]
    rfl

theorem coord_clampStarts_add_le {ss : List Int} (hsizes : sizes.length = shape.length)
    (hss : ss.length = shape.length) {e : Nat} (he : e < shape.length) (hfit : coord sizes e ≤ coord shape e) :
    coord (zipWith3 clampStart shape sizes ss) e + coord sizes e ≤ coord shape e := by
  induction shape generalizing e sizes ss with
  | nil => cases he
  | cons n shape ih =>
    obtain ⟨size, sizes, rfl⟩ := exists_cons_of_length_eq_add_one hsizes
    obtain ⟨start, ss, rfl⟩ := exists_cons_of_length_eq_add_one hss
    cases e with
    | zero => exact clampStart_le hfit start
    | succ e =>
      exact ih (add_right_cancel hsizes) (add_right_cancel hss) (Nat.lt_of_succ_lt_succ he) hfit

theorem get_dynamicUpdateSlice {ss : List Int} {a : Int} {u x y : Tensor α} (hd : d < x.shape.length)
    (hsizes : sizes.length = x.shape.length) (hss : ss.length = x.shape.length)
    (hu : u.shape = sizes.set d m) (hstarts : starts = zipWith3 clampStart x.shape sizes ss)
    (hc : c = clampStart (coord x.shape d) m a) (h : dynamicUpdateSlice (ss.set d a) u x = some y) :
    y.shape = x.shape ∧ ∀ idx ∈ indices x.shape, (InRegionOff d starts sizes idx → y.get idx =
        if c ≤ coord idx d ∧ coord idx d < c + m then
          u.get ((List.zipWith (· - ·) idx starts).set d (coord idx d - c))
        else x.get idx) ∧
      (¬InRegionOff d starts sizes idx → y.get idx = x.get idx) := by
  rw [dynamicUpdateSlice] at h
  split at h
  · cases h
    refine ⟨rfl, fun idx hidx => ?_⟩
    have hlen := length_of_mem_indices hidx
    have hlengthS : starts.length = idx.length := by
      rw [hstarts, length_clampStarts hss hsizes, hlen]
    have hlengthC : (starts.set d c).length = idx.length := by rw [length_set, hlengthS]
    have hlengthU : (sizes.set d m).length = idx.length := by rw [length_set, hsizes, hlen]
    have hregion := inRegion_set_iff (c := c) (m := m) (hlen.symm ▸ hd) hlengthS
      (hsizes.trans hlen.symm)
    dsimp only
    rw [hu, clampStarts_set, ← hc, ← hstarts]
    constructor
    · intro hoff
      by_cases hk : c ≤ coord idx d ∧ coord idx d < c + m
      · rw [if_pos hk, regionIndex_of_inRegion hlengthC hlengthU (hregion.mpr ⟨hoff, hk⟩), zipWith_sub_set hlengthS]
        rfl
      · rw [if_neg hk, regionIndex_of_not_inRegion hlengthC hlengthU fun hin => hk (hregion.mp hin).2]
        rfl
    · intro hoff
      rw [regionIndex_of_not_inRegion hlengthC hlengthU fun hin => hoff (hregion.mp hin).1]
      rfl
  · cases h

end

/-! ### One update instead of two -/

section

variable {d m n l c c' e : Nat} {starts sizes : List Nat} {ss : List Int} {a p b : Int}
  {σ : Nat → Source} {x u v w y z t : Tensor α}

theorem Source.read_set (s : Source) (idx : List Nat) (k : Nat) (a : α) :
    s.read d u v (idx.set d k) a = s.read d u v idx a := by
  cases s with
  | newer j | older j => rw [read, read, set_set]
  | operand => rfl

section

variable (hd : d < x.shape.length) (hsizes : sizes.length = x.shape.length) (hss : ss.length = x.shape.length)

include hd hsizes hss

theorem get_layered (hu : u.shape = sizes.set d m) (hv : v.shape = sizes.set d n)
    (hstarts : starts = zipWith3 clampStart x.shape sizes ss) (hc : c = clampStart (coord x.shape d) m a)
    (hc' : c' = clampStart (coord x.shape d) n p) (hy : dynamicUpdateSlice (ss.set d p) v x = some y)
    (hz : dynamicUpdateSlice (ss.set d a) u y = some z) :
    z.shape = x.shape ∧ ∀ idx ∈ indices x.shape,
      (InRegionOff d starts sizes idx → z.get idx = (Source.layered c m c' n (coord idx d)).read d u v
        (List.zipWith (· - ·) idx starts) (x.get idx)) ∧
      (¬InRegionOff d starts sizes idx → z.get idx = x.get idx) := by
  obtain ⟨hshape, hgetY⟩ := get_dynamicUpdateSlice hd hsizes hss hv hstarts hc' hy
  rw [← hshape] at hd hsizes hss hstarts hc
  obtain ⟨hshape', hgetZ⟩ := get_dynamicUpdateSlice hd hsizes hss hu hstarts hc hz
  refine ⟨hshape'.trans hshape, fun idx hidx => ⟨fun hoff => ?_, fun hoff => ?_⟩⟩
  · rw [(hgetZ idx (hshape ▸ hidx)).1 hoff, (hgetY idx hidx).1 hoff, Source.layered]
    split
    · rfl
    · split
      · rfl
      · rfl
  · rw [(hgetZ idx (hshape ▸ hidx)).2 hoff, (hgetY idx hidx).2 hoff]

theorem dynamicSliceOk_set (hfit : ∀ e < x.shape.length, e ≠ d → coord sizes e ≤ coord x.shape e) :
    DynamicSliceOk x.shape (sizes.set d m) (ss.set d a).length ↔ m ≤ coord x.shape d := by
  rw [DynamicSliceOk, length_set, and_iff_right hss, forall₂_iff_get, and_iff_right (by rw [length_set, hsizes])]
  constructor
  · intro h
    have hle := h d (by rw [length_set, hsizes]; exact hd) hd
    rwa [get_eq_getElem, get_eq_getElem, getElem_set_self, ← coord_eq_getElem hd] at hle
  · intro hm e he he'
    rw [get_eq_getElem, get_eq_getElem, ← coord_eq_getElem he, ← coord_eq_getElem he']
    by_cases hed : e = d
    · subst hed
      rwa [coord_set_self (hsizes.symm ▸ hd)]
    · rw [coord_set_of_ne hed]
      exact hfit e he' hed

end

/-- A tensor made of the two updates, with the elements `σ` along the dimension. -/
structure Made (d : Nat) (sizes : List Nat) (u v : Tensor α) (l : Nat) (σ : Nat → Source)
    (w : Tensor α) : Prop where
  shape_eq : w.shape = sizes.set d l
  get_eq : ∀ idx ∈ indices (sizes.set d 1), ∀ k < l, ∀ a, w.get (idx.set d k) = (σ k).read d u v idx a

namespace Made

theorem newer (hu : u.shape = sizes.set d m) : Made d sizes u v m .newer u :=
  ⟨hu, fun _ _ _ _ _ => rfl⟩

theorem older (hv : v.shape = sizes.set d n) : Made d sizes u v n .older v :=
  ⟨hv, fun _ _ _ _ _ => rfl⟩

theorem concatenate {τ : Nat → Source} (hd : d < sizes.length) (hy : Made d sizes u v m σ y)
    (hz : Made d sizes u v n τ z) : ∃ w, Tensor.concatenate d [y, z] = some w ∧
      Made d sizes u v (m + n) (fun k => if k < m then σ k else τ (k - m)) w := by
  obtain ⟨w, hw, halong⟩ := Along.concatenate_two hd (.of_shape hy.shape_eq) (.of_shape hz.shape_eq)
  refine ⟨w, hw, halong.shape_eq, fun idx hidx k hk a => ?_⟩
  rw [halong.get_eq idx hidx k hk, appendLine]
  split
  · rename_i hlt
    exact hy.get_eq idx hidx k hlt a
  · exact hz.get_eq idx hidx (k - m) (by omega) a

theorem slice (hd : d < sizes.length) (hy : Made d sizes u v m σ y) (limit : Int) (hpos : 0 ≤ limit)
    (hle : limit ≤ m) : ∃ w, Tensor.slice (sliceAlong d 0 limit y.shape) y = some w ∧
      Made d sizes u v limit.toNat σ w := by
  obtain ⟨w, hw, halong⟩ :=
    (Along.of_shape hy.shape_eq).slice 0 limit hd (Int.le_refl 0) hpos hle
  rw [Int.sub_zero] at halong
  refine ⟨w, hw, halong.shape_eq, fun idx hidx k hk a => ?_⟩
  rw [halong.get_eq idx hidx k hk, Int.toNat_zero, zero_add]
  exact hy.get_eq idx hidx k (by omega) a

theorem update {τ : Nat → Source} (hd : d < sizes.length) (hy : Made d sizes u v m σ y)
    (hz : Made d sizes u v n τ z) (hle : m ≤ n) :
    ∃ w, dynamicUpdateSlice ((replicate sizes.length 0).set d a) y z = some w ∧
      Made d sizes u v n (fun k => if clampStart n m a ≤ k ∧ k < clampStart n m a + m then
        σ (k - clampStart n m a) else τ k) w := by
  have hlen : z.shape.length = sizes.length := by rw [hz.shape_eq, length_set]
  have hd' : d < z.shape.length := hlen.symm ▸ hd
  have hsize : coord z.shape d = n := by rw [hz.shape_eq, coord_set_self hd]
  have hshape : y.shape = z.shape.set d m := by rw [hy.shape_eq, hz.shape_eq, set_set]
  obtain ⟨w, hw⟩ : ∃ w, dynamicUpdateSlice ((replicate sizes.length 0).set d a) y z = some w := by
    refine ⟨_, if_pos ?_⟩
    rw [hshape]
    exact (dynamicSliceOk_set hd' rfl (by rw [length_replicate, hlen])
      fun _ _ _ => Nat.le_refl _).mpr (hsize.symm ▸ hle)
  have hzeros : replicate sizes.length 0 = List.zipWith3 clampStart z.shape z.shape (replicate sizes.length 0) := by
    rw [← hlen, clampStarts_zero]
  obtain ⟨hwshape, hget⟩ := get_dynamicUpdateSlice hd' rfl (by rw [length_replicate, hlen])
    hshape hzeros (by rw [hsize]) hw
  refine ⟨w, hw, hwshape.trans hz.shape_eq, fun idx hidx k hk a' => ?_⟩
  have hmem : idx.set d k ∈ indices z.shape := by
    rw [hz.shape_eq]
    exact set_mem_indices hidx hk
  have hoff : InRegionOff d (replicate sizes.length 0) z.shape (idx.set d k) := by
    intro e he _
    have he' : e < z.shape.length := length_of_mem_indices hmem ▸ he
    have hzero : coord (replicate sizes.length 0) e = 0 := by
      rw [coord_eq_getElem (by rw [length_replicate, ← hlen]; exact he'), getElem_replicate]
    rw [hzero, Nat.sub_zero]
    exact ⟨Nat.zero_le _, coord_lt hmem he'⟩
  have hsub : List.zipWith (· - ·) (idx.set d k) (replicate sizes.length 0) = idx.set d k := by
    have hlen' : (idx.set d k).length = sizes.length := by
      rw [length_of_mem_indices hmem, hlen]
    refine ext_getElem (by simp [← hlen']) fun e he he' => ?_
    rw [getElem_zipWith, getElem_replicate, Nat.sub_zero]
  rw [(hget _ hmem).1 hoff, hsub, coord_set_of_mem hd hidx, set_set]
  split
  · exact hy.get_eq idx hidx _ (by omega) a'
  · exact hz.get_eq idx hidx k hk a'

end Made

theorem get_merged (hd : d < x.shape.length) (hsizes : sizes.length = x.shape.length)
    (hss : ss.length = x.shape.length) (hw : Made d sizes u v l σ w)
    (hstarts : starts = zipWith3 clampStart x.shape sizes ss) (hc : c = clampStart (coord x.shape d) l b)
    (ht : dynamicUpdateSlice (ss.set d b) w x = some t) :
    t.shape = x.shape ∧ ∀ idx ∈ indices x.shape,
      (InRegionOff d starts sizes idx → t.get idx = (Source.merged c l σ (coord idx d)).read d u v
        (List.zipWith (· - ·) idx starts) (x.get idx)) ∧
      (¬InRegionOff d starts sizes idx → t.get idx = x.get idx) := by
  obtain ⟨hshape, hget⟩ := get_dynamicUpdateSlice hd hsizes hss hw.shape_eq hstarts hc ht
  refine ⟨hshape, fun idx hidx => ⟨fun hoff => ?_, (hget idx hidx).2⟩⟩
  have hlen : starts.length = idx.length := by
    rw [hstarts, length_clampStarts hss hsizes, length_of_mem_indices hidx]
  have hmem := sub_mem_indices_set hlen (hsizes.trans (length_of_mem_indices hidx).symm) hoff
  rw [(hget idx hidx).1 hoff, Source.merged]
  split
  · rename_i hk
    have hread := hw.get_eq _ hmem (coord idx d - c) (by omega) (x.get idx)
    rwa [set_set, Source.read_set] at hread
  · rfl

variable {shape : List Nat}

theorem clampStarts_mem (hd : d < shape.length) (hsizes : sizes.length = shape.length)
    (hss : ss.length = shape.length) (hfit : ∀ e < shape.length, e ≠ d → coord sizes e ≤ coord shape e)
    (hpos : ∀ e < shape.length, e ≠ d → coord sizes e ≠ 0) {k : Nat} (hk : k < coord shape d) :
    (zipWith3 clampStart shape sizes ss).set d k ∈ indices shape ∧
      InRegionOff d (zipWith3 clampStart shape sizes ss) sizes
        ((zipWith3 clampStart shape sizes ss).set d k) := by
  have hlen := length_clampStarts hss hsizes
  refine ⟨mem_indices_iff.mpr ⟨by rw [length_set, hlen], fun e he => ?_⟩, fun e he hed => ?_⟩
  · by_cases hed : e = d
    · subst hed
      rwa [coord_set_self (hlen.symm ▸ hd)]
    · rw [coord_set_of_ne hed]
      have hle := coord_clampStarts_add_le hsizes hss he (hfit e he hed)
      have hne := hpos e he hed
      omega
  · rw [length_set, hlen] at he
    rw [coord_set_of_ne hed, Nat.sub_self]
    exact ⟨le_refl _, pos_of_ne_zero (hpos e he hed)⟩

/-- Tensors whose elements tell a source from all others. -/
def marked (d : Nat) (shape : List Nat) (s : Nat → Source) (source : Source) (p q : α) :
    Tensor α :=
  ⟨shape, fun idx => if source = s (coord idx d) then p else q⟩

theorem read_marked {idx shape' : List Nat} {source : Source} {p q : α} (hd : d < idx.length) (s : Source) :
    s.read d (marked d shape .newer source p q) (marked d shape' .older source p q) idx
      (if source = .operand then p else q) = if source = s then p else q := by
  cases s with
  | newer k =>
    change (if source = .newer (coord (idx.set d k) d) then p else q) = _
    rw [coord_set_self hd]
  | older k =>
    change (if source = .older (coord (idx.set d k) d) then p else q) = _
    rw [coord_set_self hd]
  | operand => rfl

/-- The two updates may be replaced by one if and only if this has room and, unless there are no elements, its
elements come from the same places. -/
theorem same_merged_iff [Nontrivial α] (hd : d < shape.length) (hsizes : sizes.length = shape.length)
    (hss : ss.length = shape.length) (hfit : ∀ e < shape.length, e ≠ d → coord sizes e ≤ coord shape e)
    (hm : m ≤ coord shape d) (hn : n ≤ coord shape d) {make : Tensor α → Tensor α → Option (Tensor α)}
    (hmake : ∀ u v, u.shape = sizes.set d m → v.shape = sizes.set d n →
      ∃ w, make u v = some w ∧ Made d sizes u v l σ w) :
    (∀ x u v y z : Tensor α, x.shape = shape → u.shape = sizes.set d m → v.shape = sizes.set d n →
      dynamicUpdateSlice (ss.set d p) v x = some y → dynamicUpdateSlice (ss.set d a) u y = some z →
        ∃ t, ((make u v).bind fun w => dynamicUpdateSlice (ss.set d b) w x) = some t ∧ Same t z) ↔
      l ≤ coord shape d ∧ ((∃ e < shape.length, e ≠ d ∧ coord sizes e = 0) ∨
        ∀ k < coord shape d, Source.layered (clampStart (coord shape d) m a) m
          (clampStart (coord shape d) n p) n k = Source.merged (clampStart (coord shape d) l b) l σ k) := by
  -- The updates are well formed, whatever the elements.
  have hupd : ∀ {k : Nat} {i : Int} {u x : Tensor α}, k ≤ coord shape d → x.shape = shape →
      u.shape = sizes.set d k → ∃ y, dynamicUpdateSlice (ss.set d i) u x = some y := by
    intro k i u x hk hx hu
    subst hx
    refine ⟨_, if_pos ?_⟩
    rw [hu]
    exact (dynamicSliceOk_set hd hsizes hss hfit).mpr hk
  constructor
  · intro h
    have hroom : l ≤ coord shape d := by
      obtain ⟨r, -, -⟩ := exists_pair_ne α
      obtain ⟨y, hy⟩ := hupd (i := p) (u := splat (sizes.set d n) r) (x := splat shape r) hn rfl rfl
      obtain ⟨hyshape, -⟩ := get_dynamicUpdateSlice hd hsizes hss rfl rfl rfl hy
      obtain ⟨z, hz⟩ := hupd (i := a) (u := splat (sizes.set d m) r) hm hyshape rfl
      obtain ⟨t, ht, -⟩ := h _ _ _ y z rfl rfl rfl hy hz
      obtain ⟨w, hw, hmade⟩ := hmake (splat (sizes.set d m) r) (splat (sizes.set d n) r) rfl rfl
      rw [hw, Option.bind_some, dynamicUpdateSlice] at ht
      split at ht
      · rename_i hok
        rw [hmade.shape_eq] at hok
        exact (dynamicSliceOk_set (x := splat shape r) hd hsizes hss hfit).mp hok
      · cases ht
    refine ⟨hroom, ?_⟩
    by_contra hnot
    obtain ⟨hpos, hsrc⟩ := not_or.mp hnot
    simp only [not_exists, not_and] at hpos
    simp only [not_forall] at hsrc
    obtain ⟨k, hk, hne⟩ := hsrc
    -- At `k` the elements come from different places: they are marked there.
    generalize hs : Source.layered (clampStart (coord shape d) m a) m
      (clampStart (coord shape d) n p) n k = s at hne
    obtain ⟨r, q, hne'⟩ := exists_pair_ne α
    obtain ⟨hidx, hoff⟩ := clampStarts_mem hd hsizes hss hfit hpos hk
    set idx := (zipWith3 clampStart shape sizes ss).set d k with hidxDef
    have hcoord : coord idx d = k :=
      coord_set_self (by rw [length_clampStarts hss hsizes]; exact hd) k
    let u := marked d (sizes.set d m) .newer s r q
    let v := marked d (sizes.set d n) .older s r q
    let x := marked d shape (fun _ => .operand) s r q
    obtain ⟨y, hy⟩ := hupd (i := p) (u := v) (x := x) hn rfl rfl
    obtain ⟨hyshape, -⟩ := get_dynamicUpdateSlice hd hsizes hss rfl rfl rfl hy
    obtain ⟨z, hz⟩ := hupd (i := a) (u := u) hm hyshape rfl
    obtain ⟨t, ht, hsame⟩ := h x u v y z rfl rfl rfl hy hz
    obtain ⟨w, hw, hmade⟩ := hmake u v rfl rfl
    rw [hw, Option.bind_some] at ht
    obtain ⟨-, hgetZ⟩ := get_layered (x := x) hd hsizes hss rfl rfl rfl rfl rfl hy hz
    obtain ⟨htshape, hgetT⟩ := get_merged (x := x) hd hsizes hss hmade rfl rfl ht
    have hrel : d < (List.zipWith (· - ·) idx (List.zipWith3 clampStart shape sizes ss)).length := by
      rw [length_zipWith, length_clampStarts hss hsizes, length_of_mem_indices hidx, min_self]
      exact hd
    have hz' := (hgetZ idx hidx).1 hoff
    have ht' := (hgetT idx hidx).1 hoff
    rw [hcoord] at hz' ht'
    have hzr : z.get idx = r := hz'.trans ((read_marked hrel _).trans (if_pos hs.symm))
    have htq : t.get idx = q := ht'.trans ((read_marked hrel _).trans (if_neg hne))
    rw [hsame.get_eq idx (htshape ▸ hidx), hzr] at htq
    exact hne' htq
  · intro ⟨hroom, h⟩ x u v y z hx hu hv hy hz
    subst hx
    obtain ⟨w, hw, hmade⟩ := hmake u v hu hv
    obtain ⟨t, ht⟩ := hupd (i := b) hroom rfl hmade.shape_eq
    refine ⟨t, by rw [hw, Option.bind_some, ht], ?_⟩
    obtain ⟨hzshape, hgetZ⟩ := get_layered hd hsizes hss hu hv rfl rfl rfl hy hz
    obtain ⟨htshape, hgetT⟩ := get_merged hd hsizes hss hmade rfl rfl ht
    refine ⟨htshape.trans hzshape.symm, fun idx hidx => ?_⟩
    rw [htshape] at hidx
    by_cases hoff : InRegionOff d (zipWith3 clampStart x.shape sizes ss) sizes idx
    · rw [(hgetT idx hidx).1 hoff, (hgetZ idx hidx).1 hoff]
      cases h with
      | inl hempty =>
        obtain ⟨e, he, hed, hzero⟩ := hempty
        have hlt := (hoff e ((length_of_mem_indices hidx).symm ▸ he) hed).2
        rw [hzero] at hlt
        exact absurd hlt (Nat.not_lt_zero _)
      | inr h => rw [h _ (coord_lt hidx hd)]
    · rw [(hgetT idx hidx).2 hoff, (hgetZ idx hidx).2 hoff]

end

end Tensor
