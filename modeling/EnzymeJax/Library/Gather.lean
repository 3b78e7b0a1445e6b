import EnzymeJax.Library.Indexed

/-!
# Gathers

Operations that only move elements, each coordinate by itself. Two of them agree on every operand if and only if they
take the same positions in each dimension, unless there are no elements.
-/

namespace Tensor

open List Option

variable {α : Type*}

/-- The element at an index is that of the operand at `φ d k` in each dimension `d`, where `k` is the
coordinate. -/
structure Gathers (sizes : List Nat) (φ : Nat → Nat → Nat) (x y : Tensor α) : Prop where
  shape_eq : y.shape = sizes
  get_eq : ∀ idx ∈ indices sizes, y.get idx = x.get (idx.mapIdx φ)

variable {l : List (Option α)} {r as : List α} {β : Type*} {f : α → Nat → Nat → Option β} {bs cs : List Nat}

theorem allSome_eq_some_iff : allSome l = some r ↔ l = r.map some := by
  constructor
  · intro h
    induction l generalizing r with
    | nil => rw [← some.inj h, map_nil]
    | cons a l ih =>
      cases a with
      | none => cases h
      | some a =>
        obtain ⟨r', hr', rfl⟩ := map_eq_some_iff.mp h
        rw [ih hr', map_cons]
  · rintro rfl
    exact allSome_map_some r

theorem allSome_map_iff {f : β → Option α} {l : List β} :
    allSome (l.map f) = some r ↔ Forall₂ (fun b a => f b = some a) l r := by
  rw [allSome_eq_some_iff, ← forall₂_eq_eq_eq, forall₂_map_left_iff, forall₂_map_right_iff]

theorem exists_allSome_iff : (∃ r, allSome l = some r) ↔ ∀ a ∈ l, ∃ b, a = some b := by
  constructor
  · rintro ⟨r, hr⟩ a ha
    rw [allSome_eq_some_iff.mp hr] at ha
    obtain ⟨b, -, rfl⟩ := mem_map.mp ha
    exact ⟨b, rfl⟩
  · intro h
    induction l with
    | nil => exact ⟨[], rfl⟩
    | cons a l ih =>
      obtain ⟨b, rfl⟩ := h a (mem_cons_self ..)
      obtain ⟨r, hr⟩ := ih fun a ha => h a (mem_cons_of_mem _ ha)
      exact ⟨b :: r, by rw [allSome, hr, map_some]⟩

theorem allSome_zipWith3_iff {r : List β} (hbs : bs.length = as.length) (hcs : cs.length = as.length) :
    allSome (zipWith3 f as bs cs) = some r ↔ r.length = as.length ∧
      ∀ d a b, as[d]? = some a → r[d]? = some b → f a (coord bs d) (coord cs d) = some b := by
  rw [allSome_eq_some_iff]
  induction as generalizing bs cs r with
  | nil =>
    cases r with
    | nil | cons b r => simp [zipWith3]
  | cons a as ih =>
    obtain ⟨b, bs, rfl⟩ := exists_cons_of_length_eq_add_one hbs
    obtain ⟨c, cs, rfl⟩ := exists_cons_of_length_eq_add_one hcs
    cases r with
    | nil => simp [zipWith3]
    | cons e r =>
      have htail := ih (r := r) (add_right_cancel hbs) (add_right_cancel hcs)
      rw [zipWith3, map_cons, cons.injEq, htail, length_cons, length_cons, Nat.add_right_cancel_iff]
      constructor
      · rintro ⟨hhead, hlen, hrest⟩
        refine ⟨hlen, fun d a' b' ha' hb' => ?_⟩
        cases d with
        | zero =>
          cases ha'
          cases hb'
          exact hhead
        | succ d => exact hrest d a' b' ha' hb'
      · rintro ⟨hlen, h⟩
        exact ⟨h 0 a e rfl rfl, hlen, fun d a' b' ha' hb' => h (d + 1) a' b' ha' hb'⟩

theorem exists_allSome_zipWith3_iff (hbs : bs.length = as.length) (hcs : cs.length = as.length) :
    (∃ r, allSome (zipWith3 f as bs cs) = some r) ↔
      ∀ d a, as[d]? = some a → ∃ b, f a (coord bs d) (coord cs d) = some b := by
  constructor
  · rintro ⟨r, hr⟩ d a ha
    obtain ⟨hlen, h⟩ := (allSome_zipWith3_iff hbs hcs).mp hr
    have hd : d < r.length := hlen.symm ▸ (List.getElem?_eq_some_iff.mp ha).1
    exact ⟨_, h d a _ ha (getElem?_eq_getElem hd)⟩
  · intro h
    induction as generalizing bs cs with
    | nil => exact ⟨[], by simp [zipWith3, allSome]⟩
    | cons a as ih =>
      obtain ⟨b, bs, rfl⟩ := exists_cons_of_length_eq_add_one hbs
      obtain ⟨c, cs, rfl⟩ := exists_cons_of_length_eq_add_one hcs
      obtain ⟨e, he⟩ := h 0 a rfl
      obtain ⟨r, hr⟩ := ih (add_right_cancel hbs) (add_right_cancel hcs)
        fun d a' ha' => h (d + 1) a' ha'
      have he : f a b c = some e := he
      exact ⟨e :: r, by rw [zipWith3, he, allSome, hr, map_some]⟩

section

variable {sizes sizes' idx shape : List Nat} {φ ψ : Nat → Nat → Nat} {x y z : Tensor α}

theorem coord_mapIdx {d : Nat} (hd : d < idx.length) : coord (idx.mapIdx φ) d = φ d (coord idx d) := by
  rw [coord_eq_getElem (by rwa [length_mapIdx]), getElem_mapIdx, coord_eq_getElem hd]

theorem mapIdx_mem_indices (hsizes : sizes.length = shape.length)
    (hφ : ∀ d < sizes.length, ∀ k < coord sizes d, φ d k < coord shape d) (hidx : idx ∈ indices sizes) :
    idx.mapIdx φ ∈ indices shape := by
  have hlen := length_of_mem_indices hidx
  rw [mem_indices_iff, length_mapIdx]
  refine ⟨hlen.trans hsizes, fun d hd => ?_⟩
  have hd' : d < sizes.length := hsizes.symm ▸ hd
  rw [coord_mapIdx (hlen.symm ▸ hd')]
  exact hφ d hd' _ (coord_lt hidx hd')

section

variable (h : Gathers sizes φ x y)

include h

theorem Gathers.congr (heq : ∀ d < sizes.length, ∀ k < coord sizes d, φ d k = ψ d k) : Gathers sizes ψ x y := by
  refine ⟨h.shape_eq, fun idx hidx => ?_⟩
  have hlen := length_of_mem_indices hidx
  rw [h.get_eq idx hidx]
  refine congrArg x.get (ext_getElem (by simp) fun d hd hd' => ?_)
  rw [length_mapIdx] at hd
  rw [getElem_mapIdx, getElem_mapIdx, ← coord_eq_getElem hd]
  exact heq d (hlen ▸ hd) _ (coord_lt hidx (hlen ▸ hd))

theorem Gathers.trans (h' : Gathers sizes' ψ y z) (hsizes : sizes'.length = sizes.length)
    (hψ : ∀ d < sizes'.length, ∀ k < coord sizes' d, ψ d k < coord sizes d) :
    Gathers sizes' (fun d k => φ d (ψ d k)) x z := by
  refine ⟨h'.shape_eq, fun idx hidx => ?_⟩
  rw [h'.get_eq idx hidx, h.get_eq _ (mapIdx_mem_indices hsizes hψ hidx), mapIdx_mapIdx]
  rfl

theorem Gathers.same (h' : Gathers sizes φ x z) : Same y z :=
  ⟨h.shape_eq.trans h'.shape_eq.symm, fun idx hidx => by
    rw [h.get_eq idx (h.shape_eq ▸ hidx), h'.get_eq idx (h.shape_eq ▸ hidx)]⟩

theorem Gathers.of_same (hsame : Same z y) : Gathers sizes φ x z :=
  ⟨hsame.shape_eq.trans h.shape_eq, fun idx hidx => by
    rw [hsame.get_eq idx (hsame.shape_eq.symm ▸ h.shape_eq.symm ▸ hidx), h.get_eq idx hidx]⟩

end

theorem gathers_self (x : Tensor α) : Gathers x.shape (fun _ k => k) x x := by
  refine ⟨rfl, fun idx _ => congrArg x.get ?_⟩
  exact ext_getElem (by simp) fun d hd hd' => by simp

theorem Gathers.same_of_places (hy : Gathers sizes φ x y) (hz : Gathers sizes ψ x z)
    (h : (∃ d < sizes.length, coord sizes d = 0) ∨ ∀ d < sizes.length, ∀ k < coord sizes d, φ d k = ψ d k) :
    Same y z := by
  refine ⟨hy.shape_eq.trans hz.shape_eq.symm, fun idx hidx => ?_⟩
  rw [hy.shape_eq] at hidx
  cases h with
  | inl hempty =>
    obtain ⟨d, hd, hzero⟩ := hempty
    have hlt := coord_lt hidx hd
    rw [hzero] at hlt
    exact absurd hlt (Nat.not_lt_zero _)
  | inr heq => rw [(hy.congr heq).get_eq idx hidx, hz.get_eq idx hidx]

/-- Two gathers agree on every operand if and only if they take the same positions, or there are no
elements. -/
theorem same_gathers_iff [Nontrivial α] (shape : List Nat) :
    (∀ x y z : Tensor α, x.shape = shape → Gathers sizes φ x y → Gathers sizes ψ x z → Same y z) ↔
      (∃ d < sizes.length, coord sizes d = 0) ∨ ∀ d < sizes.length, ∀ k < coord sizes d, φ d k = ψ d k := by
  constructor
  · intro h
    by_contra hnot
    obtain ⟨hpos, hne⟩ := not_or.mp hnot
    simp only [not_exists, not_and] at hpos
    simp only [not_forall] at hne
    obtain ⟨d, hd, k, hk, hne⟩ := hne
    have hpos' : ∀ n ∈ sizes, 0 < n := by
      intro n hn
      obtain ⟨e, he, rfl⟩ := getElem_of_mem hn
      rw [← coord_eq_getElem he]
      exact pos_of_ne_zero (hpos e he)
    -- The operand tells the two positions apart.
    obtain ⟨p, q, hpq⟩ := exists_pair_ne α
    have hzeros : replicate sizes.length 0 ∈ indices (sizes.set d (coord sizes d)) := by
      rw [set_coord_self hd]
      exact zeros_mem_indices hpos'
    have hidx := set_mem_indices hzeros hk
    rw [set_coord_self hd] at hidx
    have hcoord : coord ((replicate sizes.length 0).set d k) d = k :=
      coord_set_self (by rwa [length_replicate]) k
    have hd' : d < ((replicate sizes.length 0).set d k).length := by
      rwa [length_set, length_replicate]
    let x : Tensor α := ⟨shape, fun idx => if coord idx d = φ d k then p else q⟩
    have hsame := h x ⟨sizes, fun idx => x.get (idx.mapIdx φ)⟩ ⟨sizes, fun idx => x.get (idx.mapIdx ψ)⟩
      rfl ⟨rfl, fun _ _ => rfl⟩ ⟨rfl, fun _ _ => rfl⟩
    have hget := hsame.get_eq _ hidx
    change (if _ = _ then p else q) = if _ = _ then p else q at hget
    rw [coord_mapIdx hd', coord_mapIdx hd', hcoord, if_pos rfl, if_neg (Ne.symm hne)] at hget
    exact hpq hget
  · intro h x y z _ hy hz
    exact hy.same_of_places hz h

/-! ### Slices -/

/-- The position that a slice takes in a dimension. -/
def sliceSource (ds : List SliceDim) (d k : Nat) : Nat := (ds[d]?.map (·.source k)).getD 0

theorem gathers_slice {ds : List SliceDim} (h : slice ds x = some y) :
    Forall₂ SliceDim.Ok ds x.shape ∧ Gathers (ds.map SliceDim.size) (sliceSource ds) x y := by
  rw [slice] at h
  split at h
  · rename_i hok
    cases h
    refine ⟨hok, rfl, fun idx hidx => ?_⟩
    have hlen := length_of_mem_indices hidx
    rw [length_map] at hlen
    refine congrArg x.get (ext_getElem (by simp [hlen]) fun d hd hd' => ?_)
    rw [length_mapIdx] at hd'
    rw [getElem_zipWith, getElem_mapIdx, sliceSource, getElem?_eq_getElem (hlen ▸ hd')]
    rfl
  · cases h

theorem gathers_dynamicSlice {starts : List Int} (h : dynamicSlice starts sizes x = some y) :
    DynamicSliceOk x.shape sizes starts.length ∧
      Gathers sizes (fun d k => coord (zipWith3 clampStart x.shape sizes starts) d + k) x y := by
  rw [dynamicSlice] at h
  split at h
  · rename_i hok
    cases h
    refine ⟨hok, rfl, fun idx hidx => ?_⟩
    have hlen := length_of_mem_indices hidx
    have hclamped := length_clampStarts hok.1 hok.2.length_eq
    have hclampedIdx : (zipWith3 clampStart x.shape sizes starts).length = idx.length := by
      rw [hclamped, hlen, hok.2.length_eq]
    refine congrArg x.get (ext_getElem (by simp [dynamicIndex, hclampedIdx]) fun d hd hd' => ?_)
    rw [length_mapIdx] at hd'
    rw [getElem_mapIdx, coord_eq_getElem (hclampedIdx.symm ▸ hd')]
    simp only [dynamicIndex, getElem_zipWith]
  · cases h

theorem coord_clampStarts {starts : List Int} (hstarts : starts.length = shape.length)
    (hsizes : sizes.length = shape.length) {d : Nat} (hd : d < shape.length) :
    coord (zipWith3 clampStart shape sizes starts) d =
      clampStart (coord shape d) (coord sizes d) (starts.getD d 0) := by
  induction shape generalizing d sizes starts with
  | nil => cases hd
  | cons n shape ih =>
    obtain ⟨start, starts, rfl⟩ := exists_cons_of_length_eq_add_one hstarts
    obtain ⟨size, sizes, rfl⟩ := exists_cons_of_length_eq_add_one hsizes
    cases d with
    | zero => rfl
    | succ d =>
      exact ih (add_right_cancel hstarts) (add_right_cancel hsizes) (Nat.lt_of_succ_lt_succ hd)

end

end Tensor
