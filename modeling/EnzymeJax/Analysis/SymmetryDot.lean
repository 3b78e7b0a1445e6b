import EnzymeJax.Analysis.SymmetryPropagation
import EnzymeJax.Library.DotExchange

/-!
# Symmetries of products

The annotation of a `dot_general` has four sources: the batching dimensions, the free dimensions of each side,
and, when the right operand is a transpose of the left one, exchanges of a free dimension on the left and one
on the right. An exchange permutes all free dimensions at once, so it is a swap of two only if there are no
others, and it has to take pairs of contracting dimensions to such pairs.
-/

namespace EnzymeJax.PartialSymmetryAnnotation

open Tensor List Option Function Equiv

/-- The batching dimensions that may be swapped on both sides. -/
def batchingPairs (lhs rhs : PartialSymmetryAnnotation) (dims : DotDims) : List (Nat × Nat) :=
  (pairs dims.lhsBatching.length).filter fun p =>
    lhs.getSetId (coord dims.lhsBatching p.1) = lhs.getSetId (coord dims.lhsBatching p.2) ∧
      rhs.getSetId (coord dims.rhsBatching p.1) = rhs.getSetId (coord dims.rhsBatching p.2)

/-- The free dimensions of an operand that may be swapped, those of the result from `skip` on. -/
def freePairs (a : PartialSymmetryAnnotation) (freeDims : List Nat) (skip : Nat) : List (Nat × Nat) :=
  ((pairs freeDims.length).filter fun p =>
    a.getSetId (coord freeDims p.1) = a.getSetId (coord freeDims p.2)).map fun p =>
      (skip + p.1, skip + p.2)

/-- Each batching dimension has one id on both sides, and the contracting dimensions have the same ids
with the same multiplicities. -/
def ExchangeValid (lhs : PartialSymmetryAnnotation) (dims : DotDims) (rhsDimToLhs : List Nat) : Prop :=
  (∀ i < dims.lhsBatching.length, lhs.getSetId (coord dims.lhsBatching i) =
    lhs.getSetId (coord rhsDimToLhs (coord dims.rhsBatching i))) ∧
  (dims.lhsContracting.map lhs.getSetId).mergeSort =
    (dims.rhsContracting.map fun dim => lhs.getSetId (coord rhsDimToLhs dim)).mergeSort

instance (lhs : PartialSymmetryAnnotation) (dims : DotDims) (rhsDimToLhs : List Nat) :
    Decidable (lhs.ExchangeValid dims rhsDimToLhs) :=
  inferInstanceAs (Decidable (_ ∧ _))

/-- A free dimension on the left and one on the right with the same id. -/
def exchangePairs (lhs rhs : PartialSymmetryAnnotation) (dims : DotDims) (rhsDimToLhs : List Nat) :
    List (Nat × Nat) :=
  let lhsFreeDims := dims.lhsFree lhs.getRank
  let rhsFreeDims := dims.rhsFree rhs.getRank
  ((List.range lhsFreeDims.length ×ˢ List.range rhsFreeDims.length).filter fun p =>
    lhs.getSetId (coord lhsFreeDims p.1) = lhs.getSetId (coord rhsDimToLhs (coord rhsFreeDims p.2))).map fun p =>
        (dims.lhsBatching.length + p.1, dims.lhsBatching.length + lhsFreeDims.length + p.2)

def propagateDotGeneral (lhs rhs : PartialSymmetryAnnotation) (resultRank : Nat) (dims : DotDims)
    (rhsDimToLhs : Option (List Nat)) : PartialSymmetryAnnotation :=
  let lhsFreeDims := dims.lhsFree lhs.getRank
  let rhsFreeDims := dims.rhsFree rhs.getRank
  let result := createNotSymmetric resultRank
  let result := result.uniteAll (batchingPairs lhs rhs dims)
  let result := result.uniteAll (freePairs lhs lhsFreeDims dims.lhsBatching.length)
  let result := result.uniteAll
    (freePairs rhs rhsFreeDims (dims.lhsBatching.length + lhsFreeDims.length))
  canonicalize <|
    match rhsDimToLhs with
    | some rhsDimToLhs =>
      if lhs.ExchangeValid dims rhsDimToLhs then
        result.uniteAll (exchangePairs lhs rhs dims rhsDimToLhs)
      else result
    | none => result

/-- The dimensions of the left operand that are known to be swappable, also from the annotation of its
transpose. -/
def ofBoth (lhs rhs : PartialSymmetryAnnotation) (rhsDimToLhs : List Nat) :
    PartialSymmetryAnnotation :=
  lhs.join (rhs.propagateTranspose ((List.range rhsDimToLhs.length).map rhsDimToLhs.idxOf))

/-- The ids of each pair of contracting dimensions. -/
def contractingIds (a : PartialSymmetryAnnotation) (dims : DotDims) (rhsDimToLhs : List Nat) :
    List (Nat × Nat) :=
  (dims.lhsContracting.zip (dims.rhsContracting.map (coord rhsDimToLhs))).map fun p =>
    (a.getSetId p.1, a.getSetId p.2)

/-- Each side has one free dimension, and an exchange of the sides takes pairs of contracting dimensions
to pairs of contracting dimensions. -/
def ExchangeSound (lhs rhs : PartialSymmetryAnnotation) (dims : DotDims) (rhsDimToLhs : List Nat) :
    Prop :=
  (dims.lhsFree lhs.getRank).length = 1 ∧ ((ofBoth lhs rhs rhsDimToLhs).contractingIds dims rhsDimToLhs).Perm
      (((ofBoth lhs rhs rhsDimToLhs).contractingIds dims rhsDimToLhs).map Prod.swap)

variable {skip i j : Nat} {p : Nat × Nat}

section

variable {a lhs rhs : PartialSymmetryAnnotation} {dims : DotDims} {R : Type*} [CommRing R] {x y t : Tensor R}

theorem forall_mem_freePairs_iff {E : Setoid Nat} {free : List Nat} :
    (∀ p ∈ freePairs a free skip, E p.1 p.2) ↔ ∀ i < free.length, ∀ j < free.length,
      a.Same (coord free i) (coord free j) → E (skip + i) (skip + j) := by
  rw [freePairs, List.forall_mem_map]
  exact forall_mem_pairs_iff (E := E.comap (skip + ·))
    (P := fun i j => a.getSetId (coord free i) = a.getSetId (coord free j)) fun i j h => h.symm

variable {map : List Nat}

theorem mem_exchangePairs : p ∈ exchangePairs lhs rhs dims map ↔ ∃ i < (dims.lhsFree lhs.getRank).length,
      ∃ j < (dims.rhsFree rhs.getRank).length, lhs.Same (coord (dims.lhsFree lhs.getRank) i)
          (coord map (coord (dims.rhsFree rhs.getRank) j)) ∧
        p = (dims.lhsBatching.length + i, dims.lhsBatching.length + (dims.lhsFree lhs.getRank).length + j) := by
  rw [exchangePairs, List.mem_map]
  constructor
  · intro ⟨⟨i, j⟩, hmem, heq⟩
    obtain ⟨hmem, hsame⟩ := mem_filter.mp hmem
    obtain ⟨hi, hj⟩ := mem_product.mp hmem
    exact ⟨i, mem_range.mp hi, j, mem_range.mp hj, of_decide_eq_true hsame, heq.symm⟩
  · intro ⟨i, hi, j, hj, hsame, heq⟩
    exact ⟨(i, j), mem_filter.mpr ⟨mem_product.mpr
      ⟨mem_range.mpr hi, mem_range.mpr hj⟩, decide_eq_true hsame⟩, heq.symm⟩

/-- What is left to show is that the dimensions of an exchange may be swapped. -/
theorem valid_propagateDotGeneral_iff (hx : lhs.Valid x) (hy : rhs.Valid y)
    (ht : dotGeneral dims x y = some t) {rhsDimToLhs : Option (List Nat)} :
    (lhs.propagateDotGeneral rhs t.shape.length dims rhsDimToLhs).Valid t ↔
      ∀ map, rhsDimToLhs = some map → lhs.ExchangeValid dims map →
        ∀ p ∈ exchangePairs lhs rhs dims map, Swappable t p.1 p.2 := by
  have h := layout_of_dotGeneral ht
  have hrank := h.rank_eq
  rw [← hx.rank_eq, ← hy.rank_eq] at hrank
  have hlhsRank : ∀ {i}, i < (dims.lhsFree lhs.getRank).length → coord (dims.lhsFree lhs.getRank) i < lhs.getRank := by
    intro i hi
    rw [coord_eq_getElem hi]
    exact mem_range.mp (mem_filter.mp (getElem_mem hi)).1
  have hrhsRank : ∀ {i}, i < (dims.rhsFree rhs.getRank).length → coord (dims.rhsFree rhs.getRank) i < rhs.getRank := by
    intro i hi
    rw [coord_eq_getElem hi]
    exact mem_range.mp (mem_filter.mp (getElem_mem hi)).1
  have hlhsBatching : ∀ {i}, i < dims.lhsBatching.length → coord dims.lhsBatching i < lhs.getRank := by
    intro i hi
    rw [coord_eq_getElem hi, hx.rank_eq]
    exact h.ok.lhs_lt _ (mem_append_left _ (getElem_mem hi))
  have hrhsBatching : ∀ {i}, i < dims.lhsBatching.length → coord dims.rhsBatching i < rhs.getRank := by
    intro i hi
    have hi' : i < dims.rhsBatching.length := h.ok.batching_length.symm ▸ hi
    rw [coord_eq_getElem hi', hy.rank_eq]
    exact h.ok.rhs_lt _ (mem_append_left _ (getElem_mem hi'))
  set result := (((createNotSymmetric t.shape.length).uniteAll (batchingPairs lhs rhs dims)).uniteAll
    (freePairs lhs (dims.lhsFree lhs.getRank) dims.lhsBatching.length)).uniteAll
      (freePairs rhs (dims.rhsFree rhs.getRank) (dims.lhsBatching.length + (dims.lhsFree lhs.getRank).length)) with hres
  have hresultRank : result.getRank = t.shape.length := by simp [hres]
  have hresultRefines : result.Refines t.symmetries := by
    have hbatchingLt : ∀ p ∈ batchingPairs lhs rhs dims, p.1 < (createNotSymmetric t.shape.length).getRank ∧
          p.2 < (createNotSymmetric t.shape.length).getRank := by
      intro p hp
      obtain ⟨hlt, hlt'⟩ := mem_pairs.mp (mem_filter.mp hp).1
      rw [getRank_createNotSymmetric]
      omega
    have hfreeLt : ∀ {b : PartialSymmetryAnnotation} {free skip l},
        skip + free.length ≤ t.shape.length → ∀ p ∈ freePairs b free skip,
          p.1 < ((createNotSymmetric t.shape.length).uniteAll l).getRank ∧
            p.2 < ((createNotSymmetric t.shape.length).uniteAll l).getRank := by
      intro b free skip l hle p hp
      obtain ⟨q, hq, rfl⟩ := mem_map.mp hp
      obtain ⟨hlt, hlt'⟩ := mem_pairs.mp (mem_filter.mp hq).1
      rw [getRank_uniteAll, getRank_createNotSymmetric]
      dsimp only
      omega
    have hfreeLt' : ∀ p ∈ freePairs rhs (dims.rhsFree rhs.getRank)
        (dims.lhsBatching.length + (dims.lhsFree lhs.getRank).length),
          p.1 < (((createNotSymmetric t.shape.length).uniteAll (batchingPairs lhs rhs dims)).uniteAll
            (freePairs lhs (dims.lhsFree lhs.getRank) dims.lhsBatching.length)).getRank ∧
          p.2 < (((createNotSymmetric t.shape.length).uniteAll (batchingPairs lhs rhs dims)).uniteAll
            (freePairs lhs (dims.lhsFree lhs.getRank) dims.lhsBatching.length)).getRank := by
      intro p hp
      rw [getRank_uniteAll]
      exact hfreeLt (by omega) p hp
    rw [hres, refines_uniteAll_iff hfreeLt', refines_uniteAll_iff (hfreeLt (by omega)),
      refines_uniteAll_iff hbatchingLt]
    refine ⟨⟨⟨refines_createNotSymmetric _ _, fun p hp => ?_⟩, ?_⟩, ?_⟩
    · obtain ⟨hp, hsame⟩ := mem_filter.mp hp
      obtain ⟨hi, hlt⟩ := mem_pairs.mp hp
      have hj := hlt.trans hi
      obtain ⟨hlhsSame, hrhsSame⟩ := of_decide_eq_true hsame
      exact h.swappable_batching hi hj
        (hx.swappable _ (hlhsBatching hi) _ (hlhsBatching hj) hlhsSame)
        (hy.swappable _ (hrhsBatching hi) _ (hrhsBatching hj) hrhsSame)
    · rw [forall_mem_freePairs_iff]
      intro i hi j hj hsame
      have hswap := hx.swappable _ (hlhsRank hi) _ (hlhsRank hj) hsame
      rw [hx.rank_eq] at hi hj hswap
      exact h.swappable_lhsFree hi hj hswap
    · rw [forall_mem_freePairs_iff]
      intro i hi j hj hsame
      have hswap := hy.swappable _ (hrhsRank hi) _ (hrhsRank hj) hsame
      rw [hy.rank_eq] at hi hj hswap
      rw [hx.rank_eq]
      exact h.swappable_rhsFree hi hj hswap
  rw [valid_iff_refines]
  unfold propagateDotGeneral
  cases rhsDimToLhs with
  | none =>
    refine iff_of_true ⟨?_, refines_canonicalize_iff.mpr hresultRefines⟩ nofun
    rw [getRank_canonicalize, hresultRank]
  | some map =>
    dsimp only
    rw [getRank_canonicalize, refines_canonicalize_iff]
    split
    · rename_i hvalid
      have hlt : ∀ p ∈ exchangePairs lhs rhs dims map, p.1 < result.getRank ∧ p.2 < result.getRank := by
        intro p hp
        obtain ⟨i, hi, j, hj, -, rfl⟩ := mem_exchangePairs.mp hp
        rw [hresultRank, hrank]
        dsimp only
        omega
      rw [← hres, getRank_uniteAll, hresultRank, refines_uniteAll_iff hlt]
      constructor
      · intro hall map' hmap' _
        cases hmap'
        exact hall.2.2
      · exact fun hall => ⟨rfl, hresultRefines, hall map rfl hvalid⟩
    · rename_i hvalid
      rw [← hres]
      refine iff_of_true ⟨hresultRank, hresultRefines⟩ fun map' hmap' hvalid' => ?_
      cases hmap'
      exact absurd hvalid' hvalid

/-! ### Both annotations -/

theorem Valid.of_same {α : Type*} {x : Tensor α} {b : PartialSymmetryAnnotation} (h : b.Valid x)
    (hrank : a.getRank = b.getRank) (hsame : ∀ i < a.getRank, ∀ j < a.getRank, a.Same i j → b.Same i j) : a.Valid x :=
  ⟨hrank.trans h.rank_eq, fun i hi j hj hij =>
    h.swappable i (hrank ▸ hi) j (hrank ▸ hj) (hsame i hi j hj hij)⟩

theorem getRank_ofBoth (map : List Nat) : (ofBoth lhs rhs map).getRank = lhs.getRank := getRank_join

theorem same_propagateTranspose_idxOf_iff {n : Nat} (hmap : map.Perm (range n)) (hrank : rhs.getRank = n)
    (hi : i < n) (hj : j < n) :
    (rhs.propagateTranspose ((range map.length).map map.idxOf)).Same i j ↔ rhs.Same (map.idxOf i) (map.idxOf j) := by
  have hlen : map.length = n := by rw [hmap.length_eq, length_range]
  have hcoord : ∀ k < n, coord ((range map.length).map map.idxOf) k = map.idxOf k := fun k hk =>
    coord_map_range _ (hlen.symm ▸ hk)
  rw [propagateTranspose, same_mk_map_iff _ (hrank.symm ▸ hi) (hrank.symm ▸ hj), hcoord i hi, hcoord j hj]
  exact Iff.rfl

omit [CommRing R] in
theorem valid_ofBoth (hx : lhs.Valid x) (hy : rhs.Valid y)
    (hmap : transpose map x = some y) : (ofBoth lhs rhs map).Valid x := by
  obtain ⟨hperm, hlen, hdims⟩ := shape_transpose hmap
  have hrank : rhs.getRank = lhs.getRank := by rw [hx.rank_eq, hy.rank_eq, hlen]
  rw [← hx.rank_eq] at hperm
  refine valid_iff_refines.mpr ⟨(getRank_ofBoth map).trans hx.rank_eq, refines_join_iff.mpr ?_⟩
  intro i hi j hj hsame
  cases hsame with
  | inl hsame => exact hx.swappable i hi j hj hsame
  | inr hsame =>
    have hidx : ∀ d < lhs.getRank, map.idxOf d < lhs.getRank ∧ coord map (map.idxOf d) = d := by
      intro d hd
      have hlt := idxOf_lt_length_of_mem (hperm.mem_iff.mpr (mem_range.mpr hd))
      refine ⟨by rwa [hperm.length_eq, length_range] at hlt, ?_⟩
      rw [coord_eq_getElem hlt, getElem_idxOf]
    have hsame := (same_propagateTranspose_idxOf_iff hperm hrank hi hj).mp hsame
    have hswap := swappable_of_transpose hmap (hx.rank_eq ▸ (hidx i hi).1) (hx.rank_eq ▸ (hidx j hj).1)
      (hy.swappable _ (hrank.symm ▸ (hidx i hi).1) _ (hrank.symm ▸ (hidx j hj).1) hsame)
    rwa [(hidx i hi).2, (hidx j hj).2] at hswap

theorem same_ofBoth (hmap : map.Perm (range lhs.getRank)) (hrank : rhs.getRank = lhs.getRank)
    (hi : i < lhs.getRank) (hj : j < lhs.getRank)
    (hsame : lhs.Same i j ∨ rhs.Same (map.idxOf i) (map.idxOf j)) : (ofBoth lhs rhs map).Same i j := by
  have hrefines : (ofBoth lhs rhs map).Refines (Setoid.ker (ofBoth lhs rhs map).getSetId) :=
    fun _ _ _ _ h => h
  refine refines_join_iff.mp hrefines i hi j hj (hsame.imp_right ?_)
  exact (same_propagateTranspose_idxOf_iff hmap hrank hi hj).mpr

/-! ### One free dimension on each side -/

theorem swappable_of_exchangeSound (hx : lhs.Valid x) (hy : rhs.Valid y) (hmap : transpose map x = some y)
    (ht : dotGeneral dims x y = some t) (hvalid : lhs.ExchangeValid dims map)
    (hsound : ExchangeSound lhs rhs dims map) : ∀ p ∈ exchangePairs lhs rhs dims map, Swappable t p.1 p.2 := by
  have h := layout_of_dotGeneral ht
  have hboth := valid_ofBoth hx hy hmap
  obtain ⟨hperm, hlen, hdims⟩ := shape_transpose hmap
  obtain ⟨hone, hids⟩ := hsound
  have hone' : (dims.rhsFree rhs.getRank).length = 1 := by
    have hlhsLength := h.length_lhs
    have hrhsLength := h.length_rhs
    rw [← hx.rank_eq] at hlhsLength hlen
    rw [← hy.rank_eq] at hrhsLength hlen
    omega
  intro p hp
  obtain ⟨i, hi, j, hj, hsame, rfl⟩ := mem_exchangePairs.mp hp
  obtain rfl : i = 0 := by omega
  obtain rfl : j = 0 := by omega
  obtain ⟨f, hf⟩ := length_eq_one_iff.mp hone
  obtain ⟨f', hf'⟩ := length_eq_one_iff.mp hone'
  rw [hf, hf'] at hsame
  -- Every dimension that is paired is one of the left operand.
  have hlhsLt : ∀ d ∈ dims.lhsDims x.shape.length, d < lhs.getRank := fun d hd =>
    hx.rank_eq ▸ mem_range.mp (h.lhs_perm.mem_iff.mp hd)
  have hrhsLt : ∀ d ∈ dims.rhsDims y.shape.length, coord map d < lhs.getRank := fun d hd =>
    hx.rank_eq ▸ (hdims d (hlen ▸ mem_range.mp (h.rhs_perm.mem_iff.mp hd))).1
  have hlhsFree : dims.lhsFree x.shape.length = [f] := hx.rank_eq ▸ hf
  have hrhsFree : dims.rhsFree y.shape.length = [f'] := hy.rank_eq ▸ hf'
  have hbatching : Forall₂ (Swappable x) dims.lhsBatching
      (dims.rhsBatching.map (coord map)) := by
    refine forall₂_iff_get.mpr ⟨?_, fun i hi hi' => ?_⟩
    · rw [length_map, h.ok.batching_length]
    · have hid := hvalid.1 i hi
      rw [length_map] at hi'
      rw [coord_eq_getElem hi, coord_eq_getElem hi'] at hid
      rw [get_eq_getElem, get_eq_getElem, getElem_map]
      refine hx.swappable _ (hlhsLt _ ?_) _ (hrhsLt _ ?_) hid
      · exact mem_append_left _ (mem_append_left _ (getElem_mem hi))
      · exact mem_append_left _ (mem_append_left _ (getElem_mem hi'))
  have hfree : Swappable x f (coord map f') := by
    refine hx.swappable _ (hlhsLt _ ?_) _ (hrhsLt _ ?_) hsame
    · rw [DotDims.lhsDims, hlhsFree]
      exact mem_append_right _ mem_cons_self
    · rw [DotDims.rhsDims, hrhsFree]
      exact mem_append_right _ mem_cons_self
  set contracting := dims.lhsContracting.zip (dims.rhsContracting.map (coord map)) with hcontracting
  have hlt : ∀ e ∈ contracting, e.1 < (ofBoth lhs rhs map).getRank ∧ e.2 < (ofBoth lhs rhs map).getRank := by
    intro e he
    obtain ⟨hfst, hsnd⟩ := of_mem_zip he
    obtain ⟨d, hd, heq⟩ := List.mem_map.mp hsnd
    rw [getRank_ofBoth]
    refine ⟨hlhsLt _ (mem_append_left _ (mem_append_right _ hfst)), ?_⟩
    rw [← heq]
    exact hrhsLt _ (mem_append_left _ (mem_append_right _ hd))
  -- A list of the pairs that those of `contracting` are exchanged for.
  obtain ⟨l', hl', hperm'⟩ : Relation.Comp (Forall₂ fun i e => i =
      Prod.swap ((ofBoth lhs rhs map).getSetId e.1, (ofBoth lhs rhs map).getSetId e.2)) List.Perm
        ((ofBoth lhs rhs map).contractingIds dims map) contracting := by
    refine perm_comp_forall₂ hids ?_
    rw [contractingIds, List.map_map]
    exact forall₂_map_left_iff.mpr (forall₂_same.mpr fun _ _ => rfl)
  rw [contractingIds, forall₂_map_left_iff, forall₂_iff_zip] at hl'
  have hexchange : Forall₂ (fun e e' => Swappable x e.1 e'.2 ∧ Swappable x e.2 e'.1)
      contracting l' := by
    refine forall₂_iff_zip.mpr ⟨hl'.1, fun {e e'} hmem => ?_⟩
    obtain ⟨he, he'⟩ := of_mem_zip hmem
    obtain ⟨hfst, hsnd⟩ := Prod.mk.inj (hl'.2 hmem)
    have hlt' := hlt e' (hperm'.mem_iff.mp he')
    exact ⟨hboth.swappable _ (hlt e he).1 _ hlt'.2 hfst, hboth.swappable _ (hlt e he).2 _ hlt'.1 hsnd⟩
  rw [hf, length_singleton, Nat.add_zero, Nat.add_zero]
  exact h.swappable_exchange hmap hlhsFree hrhsFree hbatching hfree hperm'.symm hexchange

end

/-! ### Tensors that no other exchange leaves unchanged -/

/-- The coordinates that are 1 are those of dimensions of the set `m`. -/
def OnesIn (ids : List Nat) (m : Nat) (idx : List Nat) : Prop :=
  ∀ d < ids.length, coord idx d = 1 → coord ids d = m

instance (ids : List Nat) (m : Nat) (idx : List Nat) : Decidable (OnesIn ids m idx) :=
  inferInstanceAs (Decidable (∀ d < _, _))

/-- And the others are 0. -/
def OnlyOnesIn (ids : List Nat) (m : Nat) (idx : List Nat) : Prop :=
  ∀ d < ids.length, coord idx d = 0 ∨ coord idx d = 1 ∧ coord ids d = m

instance (ids : List Nat) (m : Nat) (idx : List Nat) : Decidable (OnlyOnesIn ids m idx) :=
  inferInstanceAs (Decidable (∀ d < _, _))

/-- A tensor with the symmetries of `b` that tells the set `m` from the set `n`. -/
def probe (b : PartialSymmetryAnnotation) (m n : Nat) : Tensor Int :=
  ⟨List.replicate b.getRank 3, fun idx =>
    (if OnesIn b.dimensionSetIDs m idx then 1 else 0) +
      if OnlyOnesIn b.dimensionSetIDs n idx then 1 else 0⟩

section

variable {b : PartialSymmetryAnnotation} {m n : Nat}

theorem length_probe : (probe b m n).shape.length = b.getRank := length_replicate

theorem coord_probe {d : Nat} (hd : d < b.getRank) : coord (probe b m n).shape d = 3 := by
  rw [coord_eq_getElem (by rwa [length_probe])]
  exact getElem_replicate _

theorem read_probe (c : Nat → Nat) : (probe b m n).read c =
    (if ∀ d < b.getRank, c d = 1 → b.getSetId d = m then 1 else 0) +
      if ∀ d < b.getRank, c d = 0 ∨ c d = 1 ∧ b.getSetId d = n then 1 else 0 := by
  have hcoord : ∀ d < b.getRank, coord ((range (probe b m n).shape.length).map c) d = c d := fun d hd =>
    coord_map_range _ (length_probe.symm ▸ hd)
  refine congrArg₂ (· + ·) (if_congr ?_ rfl rfl) (if_congr ?_ rfl rfl)
  · exact forall₂_congr fun d hd => by rw [hcoord d hd]; rfl
  · exact forall₂_congr fun d hd => by rw [hcoord d hd]; rfl

theorem valid_probe : b.Valid (probe b m n) := by
  refine ⟨length_probe.symm, fun i hi j hj hsame => ⟨by rw [coord_probe hi, coord_probe hj], ?_⟩⟩
  intro c _
  have hid : ∀ d, b.getSetId (swap i j d) = b.getSetId d := by
    intro d
    by_cases hdi : d = i
    · rw [hdi, swap_apply_left]
      exact hsame.symm
    · by_cases hdj : d = j
      · rw [hdj, swap_apply_right]
        exact hsame
      · rw [swap_apply_of_ne_of_ne hdi hdj]
  -- The dimensions of a set are only exchanged among themselves.
  have hforall : ∀ P : Nat → Nat → Prop, (∀ d < b.getRank, P (c (swap i j d)) (b.getSetId d)) ↔
        ∀ d < b.getRank, P (c d) (b.getSetId d) := by
    intro P
    constructor
    · intro h d hd
      have hswap := h (swap i j d) (swap_lt hi hj hd)
      rwa [swap_apply_self, hid] at hswap
    · intro h d hd
      have hswap := h (swap i j d) (swap_lt hi hj hd)
      rwa [hid] at hswap
  rw [read_probe, read_probe]
  refine congrArg₂ _ (if_congr ?_ rfl rfl) (if_congr ?_ rfl rfl)
  · exact hforall fun i id => i = 1 → id = m
  · exact hforall fun i id => i = 0 ∨ i = 1 ∧ id = n

theorem read_probe_place {dims : DotDims} {batching contracting free k : List Nat} {c : Nat → Nat}
    (hperm : (batching ++ contracting ++ free).Perm (range b.getRank))
    (hbatching : batching.length = dims.lhsBatching.length)
    (hcontracting : contracting.length = dims.lhsContracting.length)
    (hc : ∀ i < dims.lhsBatching.length, c i = 0) (hc' : ∀ i, c i ≠ 1) : (probe b m n).read
        (Tensor.place (batching ++ contracting ++ free) (dims.operandCoords skip c (coord k))) =
      (if OnesIn (contracting.map b.getSetId) m k then 1 else 0) +
        if (∀ i < free.length, c (dims.lhsBatching.length + i + skip) = 0) ∧
          OnlyOnesIn (contracting.map b.getSetId) n k then 1 else 0 := by
  have hids : ∀ P : Nat → Nat → Prop, (∀ j < (contracting.map b.getSetId).length,
        P (coord k j) (coord (contracting.map b.getSetId) j)) ↔
      ∀ j < dims.lhsContracting.length, P (coord k j) (b.getSetId (coord contracting j)) := by
    intro P
    rw [length_map, hcontracting]
    refine forall₂_congr fun j hj => ?_
    have hj' : j < contracting.length := hcontracting.symm ▸ hj
    rw [coord_map _ _ hj', coord_eq_getElem hj']
  rw [read_probe]
  refine congrArg₂ _ (if_congr ?_ rfl rfl) (if_congr ?_ rfl rfl)
  · refine (forall_place_iff (P := fun i d => i = 1 → b.getSetId d = m) hperm).trans
      ((forall_operandCoords_iff (P := fun i d => i = 1 → b.getSetId d = m) hbatching
        hcontracting).trans (Iff.trans ?_ (hids fun i id => i = 1 → id = m).symm))
    constructor
    · exact fun h => h.2.1
    · exact fun h => ⟨fun i _ hi => absurd hi (hc' i), h, fun i _ hi => absurd hi (hc' _)⟩
  · refine (forall_place_iff (P := fun i d => i = 0 ∨ i = 1 ∧ b.getSetId d = n) hperm).trans
      ((forall_operandCoords_iff (P := fun i d => i = 0 ∨ i = 1 ∧ b.getSetId d = n) hbatching
        hcontracting).trans (Iff.trans ?_ (and_congr_right' (hids fun i id => i = 0 ∨ i = 1 ∧ id = n).symm)))
    constructor
    · exact fun h => ⟨fun i hi => (h.2.2 i hi).resolve_right fun hone => hc' _ hone.1, h.2.1⟩
    · exact fun h => ⟨fun i hi => .inl (hc i hi), h.2, fun i hi => .inl (h.1 i hi)⟩

theorem sum_onesIn {lhsIds rhsIds : List Nat} (hlen : lhsIds.length = rhsIds.length) :
    (∑ k ∈ indices (replicate lhsIds.length 3),
      (if OnesIn lhsIds m k then (1 : Int) else 0) * if OnlyOnesIn rhsIds n k then 1 else 0) =
        2 ^ (lhsIds.zip rhsIds).count (m, n) := by
  induction lhsIds generalizing rhsIds with
  | nil =>
    obtain rfl := length_eq_zero_iff.mp hlen.symm
    rw [length_nil, replicate_zero, sum_indices_nil]
    simp [OnesIn, OnlyOnesIn]
  | cons id lhsIds ih =>
    obtain ⟨id', rhsIds, rfl⟩ := exists_cons_of_length_eq_add_one hlen.symm
    have hones : ∀ i k, OnesIn (id :: lhsIds) m (i :: k) ↔ (i = 1 → id = m) ∧ OnesIn lhsIds m k := by
      intro i k
      rw [OnesIn, OnesIn, length_cons, Nat.forall_lt_succ_left]
      simp [coord]
    have honly : ∀ i k, OnlyOnesIn (id' :: rhsIds) n (i :: k) ↔ (i = 0 ∨ i = 1 ∧ id' = n) ∧ OnlyOnesIn rhsIds n k := by
      intro i k
      rw [OnlyOnesIn, OnlyOnesIn, length_cons, Nat.forall_lt_succ_left]
      simp [coord]
    have hterm : ∀ i k, (if OnesIn (id :: lhsIds) m (i :: k) then (1 : Int) else 0) *
        (if OnlyOnesIn (id' :: rhsIds) n (i :: k) then 1 else 0) =
          if i = 0 ∨ i = 1 ∧ id = m ∧ id' = n then
            (if OnesIn lhsIds m k then 1 else 0) * if OnlyOnesIn rhsIds n k then 1 else 0
          else 0 := by
      intro i k
      simp only [hones, honly]
      by_cases hi : i = 0
      · simp [hi]
      · by_cases hi' : i = 1
        · by_cases hid : id = m <;> by_cases hid' : id' = n <;> simp [hi', hid, hid']
        · simp [hi, hi']
    have hrow : ∀ i, (∑ k ∈ indices (replicate lhsIds.length 3),
        (if OnesIn (id :: lhsIds) m (i :: k) then (1 : Int) else 0) *
          if OnlyOnesIn (id' :: rhsIds) n (i :: k) then 1 else 0) =
            if i = 0 ∨ i = 1 ∧ id = m ∧ id' = n then 2 ^ (lhsIds.zip rhsIds).count (m, n) else 0 := by
      intro i
      rw [← ih (add_right_cancel hlen), Finset.sum_congr rfl fun k _ => hterm i k]
      split
      · rfl
      · exact Finset.sum_const_zero
    rw [length_cons, replicate_succ, sum_indices_cons,
      Finset.sum_congr rfl fun i _ => hrow i, Finset.sum_range_succ, Finset.sum_range_succ,
      Finset.sum_range_one, zip_cons_cons, count_cons]
    by_cases hpair : id = m ∧ id' = n
    · simp [hpair, pow_succ]
      ring
    · simp [hpair]

theorem exists_product_probe {dims : DotDims} {map : List Nat} (m n : Nat)
    (hfits : dims.Fits b.getRank b.getRank) (hmap : map.Perm (range b.getRank)) :
    ∃ y t, transpose map (probe b m n) = some y ∧ dotGeneral dims (probe b m n) y = some t ∧
      (∀ c : Nat → Nat, (∀ i, c i < 3) → Within t.shape c) ∧
      ∀ c : Nat → Nat, (∀ i < dims.lhsBatching.length, c i = 0) → (∀ i, c i ≠ 1) →
        t.read c = ∑ k ∈ indices (replicate dims.lhsContracting.length 3),
          ((if OnesIn (dims.lhsContracting.map b.getSetId) m k then 1 else 0) +
            if (∀ i < (dims.lhsFree b.getRank).length, c (dims.lhsBatching.length + i) = 0) ∧
              OnlyOnesIn (dims.lhsContracting.map b.getSetId) n k then 1 else 0) *
          ((if OnesIn ((dims.rhsContracting.map (coord map)).map b.getSetId) m k then 1 else 0) +
            if (∀ i < (dims.rhsFree b.getRank).length,
                c (dims.lhsBatching.length + (dims.lhsFree b.getRank).length + i) = 0) ∧
              OnlyOnesIn ((dims.rhsContracting.map (coord map)).map b.getSetId) n k
              then 1 else 0) := by
  have hmap' : map.Perm (range (probe b m n).shape.length) := by rwa [length_probe]
  obtain ⟨y, hy⟩ : ∃ y, transpose map (probe b m n) = some y :=
    ⟨_, if_pos hmap'⟩
  obtain ⟨-, hlen, hdims⟩ := shape_transpose hy
  rw [length_probe] at hlen hdims
  have hcoordY : ∀ d < b.getRank, coord y.shape d = 3 := by
    intro d hd
    obtain ⟨hlt, -, hsize⟩ := hdims d hd
    rw [hsize, coord_probe hlt]
  have hshapeY : y.shape = replicate b.getRank 3 := by
    refine ext_getElem (by rw [hlen, length_replicate]) fun d hd hd' => ?_
    rw [← coord_eq_getElem hd, hcoordY d (hlen ▸ hd), getElem_replicate]
  obtain ⟨t, ht⟩ : ∃ t, dotGeneral dims (probe b m n) y = some t :=
    ⟨_, if_pos (hshapeY ▸ hfits.ok_replicate 3)⟩
  have h := layout_of_dotGeneral ht
  have hrank := h.rank_eq
  have hrhsPerm := map_perm_transpose hy h.rhs_perm
  have hlhsPerm := h.lhs_perm
  rw [length_probe, hlen] at hrank
  rw [length_probe] at hlhsPerm hrhsPerm
  refine ⟨y, t, hy, ht, fun c hc d hd => ?_, fun c hc hc' => ?_⟩
  · have hsize : coord t.shape d = 3 := h.coord_eq_of_forall
      (fun e he => coord_probe (length_probe (m := m) (n := n) ▸ he))
      (fun e he => hcoordY e (hlen ▸ he)) hd
    rw [hsize]
    exact hc d
  · have hshape : dims.lhsContracting.map (coord (probe b m n).shape) = replicate dims.lhsContracting.length 3 := by
      refine eq_replicate_iff.mpr ⟨length_map _, fun s hs => ?_⟩
      obtain ⟨d, hd, rfl⟩ := mem_map.mp hs
      exact coord_probe (hfits.lhs_lt d (mem_append_right _ hd))
    have hrhsDims : (dims.rhsDims y.shape.length).map (coord map) =
        dims.rhsBatching.map (coord map) ++ dims.rhsContracting.map (coord map) ++
          (dims.rhsFree b.getRank).map (coord map) := by
      rw [DotDims.rhsDims, hlen, map_append, map_append]
    rw [hrhsDims] at hrhsPerm
    rw [h.read_eq, hshape]
    refine Finset.sum_congr rfl fun k _ => congrArg₂ _ ?_ ?_
    · rw [length_probe]
      exact read_probe_place hlhsPerm rfl rfl hc hc'
    · rw [length_probe, read_place_transpose hy h.rhs_perm, hrhsDims]
      refine (read_probe_place hrhsPerm ?_ ?_ hc hc').trans ?_
      · rw [length_map, hfits.batching_length]
      · rw [length_map, hfits.contracting_length]
      · rw [length_map]
        simp only [add_right_comm]

end

section

variable {lhs rhs b : PartialSymmetryAnnotation} {dims : DotDims} {map : List Nat}

theorem contractingIds_eq_zip (a : PartialSymmetryAnnotation) (dims : DotDims) (map : List Nat) :
    a.contractingIds dims map = (dims.lhsContracting.map a.getSetId).zip
      ((dims.rhsContracting.map (coord map)).map a.getSetId) := by
  rw [contractingIds, zip_map]
  rfl

theorem length_contractingIds (a : PartialSymmetryAnnotation) (map : List Nat)
    (hdims : dims.rhsContracting.length = dims.lhsContracting.length) :
    (dims.lhsContracting.map a.getSetId).length = dims.lhsContracting.length ∧
      ((dims.rhsContracting.map (coord map)).map a.getSetId).length = dims.lhsContracting.length := by
  rw [length_map, length_map, length_map, hdims]
  exact ⟨rfl, rfl⟩

theorem length_lhsFree_of_swappable (hfits : dims.Fits b.getRank b.getRank) (hmap : map.Perm (range b.getRank))
    (hi : i < (dims.lhsFree b.getRank).length) (hj : j < (dims.rhsFree b.getRank).length)
    (h : ∀ y t, transpose map (probe b 0 0) = some y → dotGeneral dims (probe b 0 0) y = some t →
      Swappable t (dims.lhsBatching.length + i)
        (dims.lhsBatching.length + (dims.lhsFree b.getRank).length + j)) : (dims.lhsFree b.getRank).length = 1 := by
  by_contra hne
  obtain ⟨i', hi', hii'⟩ : ∃ i' < (dims.lhsFree b.getRank).length, i' ≠ i :=
    ⟨if i = 0 then 1 else 0, by split <;> omega, by split <;> omega⟩
  obtain ⟨y, t, hy, ht, hwithin, hread⟩ := exists_product_probe 0 0 hfits hmap
  let c : Nat → Nat := fun d =>
    if d = dims.lhsBatching.length + i ∨ d = dims.lhsBatching.length + i' then 2 else 0
  have hcLt : ∀ d, c d < 3 ∧ c d ≠ 1 := fun d => by
    dsimp only [c]
    split <;> omega
  have hcI : c (dims.lhsBatching.length + i) = 2 := if_pos (.inl rfl)
  have hcI' : c (dims.lhsBatching.length + i') = 2 := if_pos (.inr rfl)
  have hcZero : ∀ d, d ≠ dims.lhsBatching.length + i → d ≠ dims.lhsBatching.length + i' → c d = 0 :=
    fun d hd hd' => if_neg fun hor => hor.elim hd hd'
  have hswap := (h y t hy ht).read_swap c (hwithin c fun d => (hcLt d).1)
  set σ := swap (dims.lhsBatching.length + i)
    (dims.lhsBatching.length + (dims.lhsFree b.getRank).length + j)
  have hσ : ∀ d, d ≠ dims.lhsBatching.length + i →
      d ≠ dims.lhsBatching.length + (dims.lhsFree b.getRank).length + j → σ d = d :=
    fun d hd hd' => swap_apply_of_ne_of_ne hd hd'
  have hreadC := hread c (fun d hd => hcZero d (by omega) (by omega)) fun d => (hcLt d).2
  have hreadSwap := hread (c ∘ σ) (fun d hd => by
    rw [comp_apply, hσ d (by omega) (by omega)]
    exact hcZero d (by omega) (by omega)) fun d => (hcLt _).2
  have hlhs : (∀ k < (dims.lhsFree b.getRank).length, c (dims.lhsBatching.length + k) = 0) = False :=
    eq_false fun hall => by
      have hzero := hall i hi
      omega
  have hrhs : (∀ k < (dims.rhsFree b.getRank).length,
      c (dims.lhsBatching.length + (dims.lhsFree b.getRank).length + k) = 0) = True :=
    eq_true fun k _ => hcZero _ (by omega) (by omega)
  have hlhs' : (∀ k < (dims.lhsFree b.getRank).length, (c ∘ σ) (dims.lhsBatching.length + k) = 0) = False :=
    eq_false fun hall => by
      have hzero := hall i' hi'
      rw [comp_apply, hσ _ (by omega) (by omega)] at hzero
      omega
  have hrhs' : (∀ k < (dims.rhsFree b.getRank).length,
      (c ∘ σ) (dims.lhsBatching.length + (dims.lhsFree b.getRank).length + k) = 0) = False :=
    eq_false fun hall => by
      have hzero := hall j hj
      rw [comp_apply, swap_apply_right] at hzero
      omega
  simp only [hlhs, hrhs, hlhs', hrhs', true_and, false_and, if_false, add_zero, mul_add,
    Finset.sum_add_distrib] at hreadC hreadSwap
  rw [hreadC, hreadSwap] at hswap
  obtain ⟨hlen, hlen'⟩ := length_contractingIds b map hfits.contracting_length
  have hsum := sum_onesIn (m := 0) (n := 0) (hlen.trans hlen'.symm)
  rw [hlen] at hsum
  have hpos : (0 : Int) < 2 ^ ((dims.lhsContracting.map b.getSetId).zip
      ((dims.rhsContracting.map (coord map)).map b.getSetId)).count (0, 0) := by positivity
  rw [← hsum] at hpos
  linarith

theorem contractingIds_perm_of_swappable (hfits : dims.Fits b.getRank b.getRank) (hmap : map.Perm (range b.getRank))
    (hlhs : (dims.lhsFree b.getRank).length = 1) (hrhs : (dims.rhsFree b.getRank).length = 1)
    (h : ∀ m n y t, transpose map (probe b m n) = some y → dotGeneral dims (probe b m n) y = some t →
      Swappable t dims.lhsBatching.length (dims.lhsBatching.length + 1)) :
    (b.contractingIds dims map).Perm ((b.contractingIds dims map).map Prod.swap) := by
  refine perm_iff_count.mpr fun (m, n) => ?_
  obtain ⟨y, t, hy, ht, hwithin, hread⟩ := exists_product_probe m n hfits hmap
  let c : Nat → Nat := fun d => if d = dims.lhsBatching.length + 1 then 2 else 0
  have hcLt : ∀ d, c d < 3 ∧ c d ≠ 1 := fun d => by
    dsimp only [c]
    split <;> omega
  have hswap := (h m n y t hy ht).read_swap c (hwithin c fun d => (hcLt d).1)
  have hreadC := hread c (fun d hd => if_neg (by omega)) fun d => (hcLt d).2
  have hreadSwap := hread
    (c ∘ swap dims.lhsBatching.length (dims.lhsBatching.length + 1)) (fun d hd => by
      rw [comp_apply, swap_apply_of_ne_of_ne (by omega) (by omega)]
      exact if_neg (by omega)) fun d => (hcLt _).2
  have hone : ∀ P : Nat → Prop, (∀ k < 1, P k) ↔ P 0 := fun P =>
    ⟨fun hall => hall 0 zero_lt_one, fun h0 k hk => Nat.lt_one_iff.mp hk ▸ h0⟩
  have hlhsC : c dims.lhsBatching.length = 0 := if_neg (by omega)
  have hrhsC : c (dims.lhsBatching.length + 1) = 2 := if_pos rfl
  rw [hlhs, hrhs] at hreadC hreadSwap
  simp only [hone, comp_apply, swap_apply_left, swap_apply_right,
    hlhsC, hrhsC, two_ne_zero, true_and, false_and, if_false, add_zero, mul_add, add_mul,
    Finset.sum_add_distrib] at hreadC hreadSwap
  rw [hreadC, hreadSwap] at hswap
  obtain ⟨hlen, hlen'⟩ := length_contractingIds b map hfits.contracting_length
  have hsum := sum_onesIn (m := m) (n := n) (hlen.trans hlen'.symm)
  have hsum' := sum_onesIn (m := m) (n := n) (hlen'.trans hlen.symm)
  rw [hlen] at hsum
  rw [hlen'] at hsum'
  have hsums := add_left_cancel hswap
  rw [hsum, Finset.sum_congr rfl fun k _ => mul_comm _ _, hsum'] at hsums
  rw [contractingIds_eq_zip, zip_swap]
  exact pow_right_injective₀ two_pos (by norm_num) hsums

theorem exchangeSound_of_swappable (hfits : dims.Fits lhs.getRank rhs.getRank) (hmap : map.Perm (range lhs.getRank))
    (hrank : rhs.getRank = lhs.getRank) (hp : p ∈ exchangePairs lhs rhs dims map)
    (h : ∀ m n y t, transpose map (probe (ofBoth lhs rhs map) m n) = some y →
      dotGeneral dims (probe (ofBoth lhs rhs map) m n) y = some t → Swappable t p.1 p.2) :
    ExchangeSound lhs rhs dims map := by
  have hbRank : (ofBoth lhs rhs map).getRank = lhs.getRank := getRank_ofBoth map
  obtain ⟨i, hi, j, hj, -, rfl⟩ := mem_exchangePairs.mp hp
  rw [hrank, ← hbRank] at hfits hj
  rw [← hbRank] at hmap hi h
  have hlhs := length_lhsFree_of_swappable hfits hmap hi hj (h 0 0)
  obtain ⟨y, t, hy, ht, -⟩ := exists_product_probe 0 0 hfits hmap
  have hlayout := layout_of_dotGeneral ht
  have hlhsLength := hlayout.length_lhs
  have hrhsLength := hlayout.length_rhs
  rw [(shape_transpose hy).2.1, length_probe] at hrhsLength
  rw [length_probe] at hlhsLength
  have hrhs : (dims.rhsFree (ofBoth lhs rhs map).getRank).length = 1 := by omega
  obtain rfl : i = 0 := by omega
  obtain rfl : j = 0 := by omega
  rw [hlhs] at h
  refine ⟨hbRank ▸ hlhs, contractingIds_perm_of_swappable hfits hmap hlhs hrhs h⟩

/-- The annotation is valid for all products of tensors that have the annotations of the operands, one a transpose
of the other if that is said. -/
def DotSound (lhs rhs : PartialSymmetryAnnotation) (dims : DotDims) (rhsDimToLhs : Option (List Nat)) :
    Prop :=
  ∀ (R : Type) [CommRing R] (x y t : Tensor R), lhs.Valid x → rhs.Valid y →
    (∀ map, rhsDimToLhs = some map → transpose map x = some y) → dotGeneral dims x y = some t →
      (lhs.propagateDotGeneral rhs t.shape.length dims rhsDimToLhs).Valid t

/-- The annotation is sound if and only if, where an exchange unites any sets, it is a swap of two dimensions. -/
theorem dotSound_iff (hfits : dims.Fits lhs.getRank rhs.getRank) {rhsDimToLhs : Option (List Nat)}
    (halias : ∀ map, rhsDimToLhs = some map → map.Perm (List.range lhs.getRank) ∧ rhs.getRank = lhs.getRank) :
    DotSound lhs rhs dims rhsDimToLhs ↔ ∀ map, rhsDimToLhs = some map →
      lhs.ExchangeValid dims map → exchangePairs lhs rhs dims map ≠ [] → ExchangeSound lhs rhs dims map := by
  constructor
  · intro hsound map hmap hvalid hpairs
    obtain ⟨hperm, hrank⟩ := halias map hmap
    obtain ⟨p, hp⟩ := exists_mem_of_ne_nil _ hpairs
    refine exchangeSound_of_swappable hfits hperm hrank hp fun m n y t hy ht => ?_
    have hx : lhs.Valid (probe (ofBoth lhs rhs map) m n) :=
      valid_probe.of_same (getRank_ofBoth map).symm fun i hi j hj hsame =>
        same_ofBoth hperm hrank hi hj (.inl hsame)
    have hy' : rhs.Valid y := by
      obtain ⟨-, hlength, hdims⟩ := shape_transpose hy
      rw [length_probe, getRank_ofBoth] at hlength hdims
      refine ⟨hrank.trans hlength.symm, fun i hi j hj hsame => ?_⟩
      rw [hrank] at hi hj
      obtain ⟨hlt, hidx, -⟩ := hdims i hi
      obtain ⟨hlt', hidx', -⟩ := hdims j hj
      have hboth : (ofBoth lhs rhs map).Same (coord map i) (coord map j) :=
        same_ofBoth hperm hrank hlt hlt' (.inr (by rw [hidx, hidx']; exact hsame))
      have hrankX : lhs.getRank = (probe (ofBoth lhs rhs map) m n).shape.length := by
        rw [length_probe, getRank_ofBoth]
      exact swappable_transpose hy (hrankX ▸ hi) (hrankX ▸ hj)
        (valid_probe.swappable _ (by rwa [getRank_ofBoth]) _ (by rwa [getRank_ofBoth]) hboth)
    have hvalidT := hsound Int _ y t hx hy'
      (fun map' hmap' => by rwa [← some.inj (hmap.symm.trans hmap')]) ht
    exact (valid_propagateDotGeneral_iff hx hy' ht).mp hvalidT map hmap hvalid p hp
  · intro h R _ x y t hx hy hmap ht
    refine (valid_propagateDotGeneral_iff hx hy ht).mpr fun map halias hvalid p hp => ?_
    exact swappable_of_exchangeSound hx hy (hmap map halias) ht hvalid
      (h map halias hvalid (ne_nil_of_mem hp)) p hp

/-- The product of a matrix and its transpose is symmetric. -/
theorem dotSound_iff_matrix : DotSound (createNotSymmetric 2) (createNotSymmetric 2)
    ⟨[], [], [1], [1]⟩ (some [0, 1]) := by
  refine (dotSound_iff ⟨rfl, rfl, by decide, by decide, by decide, by decide⟩ ?_).mpr ?_
  · intro map hmap
    cases hmap
    exact ⟨by decide, rfl⟩
  · intro map hmap _ _
    cases hmap
    exact ⟨by decide, by decide⟩

end

def identityMatrix : Tensor Int := ⟨[2, 2], fun idx => if coord idx 0 = coord idx 1 then 1 else 0⟩

theorem valid_identityMatrix : (⟨[0, 0]⟩ : PartialSymmetryAnnotation).Valid identityMatrix := by
  have hswap : Swappable identityMatrix 0 1 :=
    ⟨rfl, fun c _ => if_congr ⟨Eq.symm, Eq.symm⟩ rfl rfl⟩
  refine ⟨rfl, fun i hi j hj _ => ?_⟩
  have hi : i < 2 := hi
  have hj : j < 2 := hj
  interval_cases i <;> interval_cases j
  · exact .refl identityMatrix 0
  · exact hswap
  · exact hswap.symm
  · exact .refl identityMatrix 1

/-- The outer product of a symmetric matrix with itself. Its four dimensions end up in one set, but
exchanging one dimension of each factor changes it. -/
theorem not_dotSound_outer :
    ¬DotSound (⟨[0, 0]⟩ : PartialSymmetryAnnotation) ⟨[0, 0]⟩ ⟨[], [], [], []⟩ (some [0, 1]) := by
  intro h
  obtain ⟨y, hy⟩ : ∃ y, transpose [0, 1] identityMatrix = some y := ⟨_, if_pos (by decide)⟩
  obtain ⟨t, ht⟩ : ∃ t, dotGeneral ⟨[], [], [], []⟩ identityMatrix y = some t := by
    have hok : (⟨[], [], [], []⟩ : DotDims).Ok identityMatrix.shape y.shape :=
      ⟨rfl, rfl, .nil, .nil, nofun, nofun, rfl, rfl⟩
    exact ⟨_, if_pos hok⟩
  have hcompute : ∀ {γ : Type} (f : Tensor Int → γ), ((transpose [0, 1] identityMatrix).bind fun y =>
      (dotGeneral ⟨[], [], [], []⟩ identityMatrix y).map f) = some (f t) := by
    intro γ f
    rw [hy, bind_some, ht, map_some]
  have hvalidY : (⟨[0, 0]⟩ : PartialSymmetryAnnotation).Valid y :=
    valid_propagateTranspose valid_identityMatrix hy
  have hvalid := h Int identityMatrix y t valid_identityMatrix hvalidY
    (fun map hmap => by rwa [← some.inj hmap]) ht
  have hswap : Swappable t 1 2 :=
    (valid_propagateDotGeneral_iff valid_identityMatrix hvalidY ht).mp hvalid [0, 1] rfl
      ⟨nofun, rfl⟩ (1, 2) (by decide)
  have hshape : t.shape = [2, 2, 2, 2] :=
    some.inj ((hcompute Tensor.shape).symm.trans (by decide))
  have hone : t.read (coord [0, 0, 1, 1]) = 1 :=
    some.inj ((hcompute fun t => t.read (coord [0, 0, 1, 1])).symm.trans (by decide))
  have hzero : t.read (coord [0, 0, 1, 1] ∘ Equiv.swap 1 2) = 0 :=
    some.inj ((hcompute fun t =>
      t.read (coord [0, 0, 1, 1] ∘ Equiv.swap 1 2)).symm.trans (by decide))
  have hwithin : Within t.shape (coord [0, 0, 1, 1]) := by
    rw [hshape]
    exact within_coord (mem_indices_iff.mpr ⟨rfl, by decide⟩)
  rw [hswap.read_swap _ hwithin, hone] at hzero
  exact one_ne_zero hzero

end EnzymeJax.PartialSymmetryAnnotation
