import EnzymeJax.Library.Symmetry

/-!
# Products of tensors

`dot_general` multiplies two tensors along pairs of batching dimensions and sums over pairs of contracting ones. The
result has the batching dimensions, the free ones of the left operand and those of the right one.
-/

namespace Tensor

open Finset List Function Equiv

structure DotDims where
  lhsBatching : List Nat
  rhsBatching : List Nat
  lhsContracting : List Nat
  rhsContracting : List Nat

def freeDims (rank : Nat) (batching contracting : List Nat) : List Nat :=
  (List.range rank).filter fun d => d ∉ batching ∧ d ∉ contracting

namespace DotDims

variable (dims : DotDims)

/-- The free dimensions of an operand with `rank` dimensions. -/
def lhsFree (rank : Nat) : List Nat := freeDims rank dims.lhsBatching dims.lhsContracting

def rhsFree (rank : Nat) : List Nat := freeDims rank dims.rhsBatching dims.rhsContracting

def lhsDims (rank : Nat) : List Nat := dims.lhsBatching ++ dims.lhsContracting ++ dims.lhsFree rank

def rhsDims (rank : Nat) : List Nat := dims.rhsBatching ++ dims.rhsContracting ++ dims.rhsFree rank

theorem length_lhsDims (rank : Nat) : (dims.lhsDims rank).length =
    dims.lhsBatching.length + dims.lhsContracting.length + (dims.lhsFree rank).length := by
  rw [lhsDims, length_append, length_append]

theorem length_rhsDims (rank : Nat) : (dims.rhsDims rank).length =
    dims.rhsBatching.length + dims.rhsContracting.length + (dims.rhsFree rank).length := by
  rw [rhsDims, length_append, length_append]

/-- The operands have the dimensions, each at most once, and pairs of dimensions have one size. -/
structure Ok (lhs rhs : List Nat) : Prop where
  batching_length : dims.rhsBatching.length = dims.lhsBatching.length
  contracting_length : dims.rhsContracting.length = dims.lhsContracting.length
  lhs_nodup : (dims.lhsBatching ++ dims.lhsContracting).Nodup
  rhs_nodup : (dims.rhsBatching ++ dims.rhsContracting).Nodup
  lhs_lt : ∀ d ∈ dims.lhsBatching ++ dims.lhsContracting, d < lhs.length
  rhs_lt : ∀ d ∈ dims.rhsBatching ++ dims.rhsContracting, d < rhs.length
  batching_size : dims.lhsBatching.map (coord lhs) = dims.rhsBatching.map (coord rhs)
  contracting_size : dims.lhsContracting.map (coord lhs) = dims.rhsContracting.map (coord rhs)

instance (lhs rhs : List Nat) : Decidable (dims.Ok lhs rhs) :=
  decidable_of_iff (_ ∧ _ ∧ _ ∧ _ ∧ _ ∧ _ ∧ _ ∧ _)
    ⟨fun ⟨h₁, h₂, h₃, h₄, h₅, h₆, h₇, h₈⟩ => ⟨h₁, h₂, h₃, h₄, h₅, h₆, h₇, h₈⟩,
      fun ⟨h₁, h₂, h₃, h₄, h₅, h₆, h₇, h₈⟩ => ⟨h₁, h₂, h₃, h₄, h₅, h₆, h₇, h₈⟩⟩

/-- The dimensions are right for operands with that many dimensions. -/
structure Fits (lhsRank rhsRank : Nat) : Prop where
  batching_length : dims.rhsBatching.length = dims.lhsBatching.length
  contracting_length : dims.rhsContracting.length = dims.lhsContracting.length
  lhs_nodup : (dims.lhsBatching ++ dims.lhsContracting).Nodup
  rhs_nodup : (dims.rhsBatching ++ dims.rhsContracting).Nodup
  lhs_lt : ∀ d ∈ dims.lhsBatching ++ dims.lhsContracting, d < lhsRank
  rhs_lt : ∀ d ∈ dims.rhsBatching ++ dims.rhsContracting, d < rhsRank

/-- The coordinates of an operand, in the order of its dimensions, from those of the result and of the
sum. In the result, `skip` free dimensions come before its own. -/
def operandCoords (skip : Nat) (c k : Nat → Nat) (p : Nat) : Nat :=
  if p < dims.lhsBatching.length then c p
  else if p < dims.lhsBatching.length + dims.lhsContracting.length then
    k (p - dims.lhsBatching.length)
  else c (p - dims.lhsContracting.length + skip)

end DotDims

variable {R : Type*} [CommRing R]

def dotGeneral (dims : DotDims) (x y : Tensor R) : Option (Tensor R) :=
  if dims.Ok x.shape y.shape then
    some ⟨(dims.lhsBatching ++ dims.lhsFree x.shape.length).map (coord x.shape) ++
        (dims.rhsFree y.shape.length).map (coord y.shape), fun idx =>
      ∑ k ∈ indices (dims.lhsContracting.map (coord x.shape)),
        x.read (place (dims.lhsDims x.shape.length) (dims.operandCoords 0 (coord idx) (coord k))) *
          y.read (place (dims.rhsDims y.shape.length) (dims.operandCoords
            (dims.lhsFree x.shape.length).length (coord idx) (coord k)))⟩
  else none

variable {batching contracting : List Nat} {u u' : Nat → Nat}

theorem perm_freeDims {rank : Nat} (hnodup : (batching ++ contracting).Nodup)
    (hlt : ∀ d ∈ batching ++ contracting, d < rank) :
    (batching ++ contracting ++ freeDims rank batching contracting).Perm (range rank) := by
  have hfree : ∀ d, d ∈ freeDims rank batching contracting ↔ d < rank ∧ d ∉ batching ++ contracting := by
    intro d
    rw [freeDims, List.mem_filter, List.mem_range, decide_eq_true_iff, mem_append, not_or]
  refine (perm_ext_iff_of_nodup ?_ nodup_range).mpr fun d => ?_
  · refine nodup_append.mpr ⟨hnodup, nodup_range.filter _, fun _ hd e he heq => ?_⟩
    exact ((hfree e).mp he).2 (heq ▸ hd)
  · rw [mem_append, hfree, List.mem_range]
    constructor
    · exact fun h => h.elim (hlt d) And.left
    · intro hd
      by_cases hmem : d ∈ batching ++ contracting
      · exact .inl hmem
      · exact .inr ⟨hd, hmem⟩

theorem DotDims.Fits.ok_replicate {dims : DotDims} {m n : Nat} (h : dims.Fits m n) (size : Nat) :
    dims.Ok (replicate m size) (replicate n size) := by
  have hmap : ∀ {l : List Nat} {m : Nat}, (∀ d ∈ l, d < m) →
      l.map (coord (replicate m size)) = replicate l.length size := by
    intro l m hl
    refine eq_replicate_iff.mpr ⟨length_map _, fun s hs => ?_⟩
    obtain ⟨d, hd, rfl⟩ := mem_map.mp hs
    rw [coord_eq_getElem (by rw [length_replicate]; exact hl d hd), getElem_replicate]
  refine ⟨h.batching_length, h.contracting_length, h.lhs_nodup, h.rhs_nodup, ?_, ?_, ?_, ?_⟩
  · rw [length_replicate]
    exact h.lhs_lt
  · rw [length_replicate]
    exact h.rhs_lt
  · rw [hmap fun d hd => h.lhs_lt d (mem_append_left _ hd),
      hmap fun d hd => h.rhs_lt d (mem_append_left _ hd), h.batching_length]
  · rw [hmap fun d hd => h.lhs_lt d (mem_append_right _ hd),
      hmap fun d hd => h.rhs_lt d (mem_append_right _ hd), h.contracting_length]

theorem read_place_swap {α : Type*} {x : Tensor α} {dims : List Nat} {p q : Nat}
    (hdims : dims.Perm (range x.shape.length)) (hu : Within x.shape (place dims u)) (hp : p < dims.length)
    (hq : q < dims.length) (heq : ∀ r < dims.length, u' r = u (swap p q r))
    (hswap : Swappable x (coord dims p) (coord dims q)) : x.read (place dims u') = x.read (place dims u) := by
  have hnodup : dims.Nodup := hdims.nodup_iff.mpr nodup_range
  rw [coord_eq_getElem hp, coord_eq_getElem hq] at hswap
  rw [← hswap.read_swap _ hu, ← place_comp_swap hnodup hp hq]
  refine read_congr x fun d hd => heq _ ?_
  exact idxOf_lt_length_of_mem (hdims.mem_iff.mpr (List.mem_range.mpr hd))

theorem read_place_eq {α : Type*} {x : Tensor α} {dims : List Nat} (hdims : dims.Perm (range x.shape.length))
    (heq : ∀ r < dims.length, u' r = u r) : x.read (place dims u') = x.read (place dims u) :=
  read_congr x fun _ hd => heq _
    (idxOf_lt_length_of_mem (hdims.mem_iff.mpr (List.mem_range.mpr hd)))

section

variable {dims : DotDims} {x y t : Tensor R}

/-- The sizes and orders of the dimensions of a product. -/
structure DotDims.Layout (dims : DotDims) (x y t : Tensor R) : Prop where
  ok : dims.Ok x.shape y.shape
  lhs_perm : (dims.lhsDims x.shape.length).Perm (List.range x.shape.length)
  rhs_perm : (dims.rhsDims y.shape.length).Perm (List.range y.shape.length)
  rank_eq : t.shape.length = dims.lhsBatching.length + (dims.lhsFree x.shape.length).length +
    (dims.rhsFree y.shape.length).length
  size_batching : ∀ i < dims.lhsBatching.length, coord t.shape i = coord x.shape (coord dims.lhsBatching i)
  size_lhsFree : ∀ i < (dims.lhsFree x.shape.length).length, coord t.shape (dims.lhsBatching.length + i) =
      coord x.shape (coord (dims.lhsFree x.shape.length) i)
  size_rhsFree : ∀ i < (dims.rhsFree y.shape.length).length,
    coord t.shape (dims.lhsBatching.length + (dims.lhsFree x.shape.length).length + i) =
      coord y.shape (coord (dims.rhsFree y.shape.length) i)
  read_eq : ∀ c, t.read c = ∑ k ∈ indices (dims.lhsContracting.map (coord x.shape)),
    x.read (place (dims.lhsDims x.shape.length) (dims.operandCoords 0 c (coord k))) *
      y.read (place (dims.rhsDims y.shape.length) (dims.operandCoords (dims.lhsFree x.shape.length).length c (coord k)))

theorem coord_append_left {l m : List Nat} {i : Nat} (hi : i < l.length) :
    coord (l ++ m) i = coord l i := by
  rw [coord, coord, getD_append _ _ _ _ hi]

theorem coord_append_right (l m : List Nat) (i : Nat) : coord (l ++ m) (l.length + i) = coord m i := by
  rw [coord, coord, getD_append_right _ _ _ _ le_self_add, Nat.add_sub_cancel_left]

theorem layout_of_dotGeneral (h : dotGeneral dims x y = some t) : dims.Layout x y t := by
  rw [dotGeneral] at h
  split at h
  · rename_i hok
    cases h
    have hlhs : (dims.lhsDims x.shape.length).Perm (range x.shape.length) :=
      perm_freeDims hok.lhs_nodup hok.lhs_lt
    have hrhs : (dims.rhsDims y.shape.length).Perm (range y.shape.length) :=
      perm_freeDims hok.rhs_nodup hok.rhs_lt
    have hlhsLength := dims.length_lhsDims x.shape.length
    have hrhsLength := dims.length_rhsDims y.shape.length
    rw [hok.batching_length, hok.contracting_length] at hrhsLength
    refine ⟨hok, hlhs, hrhs, by simp [add_assoc], fun i hi => ?_, fun i hi => ?_, fun i hi => ?_, fun c => ?_⟩
    · rw [coord_append_left (by simp; omega), coord_map _ _ (by simp; omega),
        getElem_append_left hi, coord_eq_getElem hi]
    · rw [coord_append_left (by simp; omega), coord_map _ _ (by simp; omega),
        getElem_append_right le_self_add, coord_eq_getElem hi]
      simp only [Nat.add_sub_cancel_left]
    · have hlen : dims.lhsBatching.length + (dims.lhsFree x.shape.length).length =
          ((dims.lhsBatching ++ dims.lhsFree x.shape.length).map (coord x.shape)).length := by simp
      dsimp only
      rw [hlen, coord_append_right, coord_map _ _ hi, coord_eq_getElem hi]
    · have hcoord : ∀ r < dims.lhsBatching.length + (dims.lhsFree x.shape.length).length +
          (dims.rhsFree y.shape.length).length, coord ((List.range
            ((dims.lhsBatching ++ dims.lhsFree x.shape.length).map (coord x.shape) ++
              (dims.rhsFree y.shape.length).map (coord y.shape)).length).map c) r = c r := by
        intro r hr
        rw [coord_map _ _ (by simpa [add_assoc] using hr), getElem_range]
      refine sum_congr rfl fun k _ => congrArg₂ _ (read_place_eq hlhs fun r hr => ?_)
        (read_place_eq hrhs fun r hr => ?_)
      all_goals
        unfold DotDims.operandCoords
        split
        · exact hcoord r (by omega)
        · split
          · rfl
          · exact hcoord _ (by omega)
  · cases h

omit [CommRing R] in
theorem coord_append_three (l m n : List Nat) (p : Nat) : coord (l ++ m ++ n) p =
    if p < l.length then coord l p
    else if p < l.length + m.length then coord m (p - l.length)
    else coord n (p - (l.length + m.length)) := by
  split
  · rename_i hlt
    rw [append_assoc, coord_append_left hlt]
  · split
    · rename_i hge hlt
      obtain ⟨i, rfl⟩ := Nat.exists_eq_add_of_le (Nat.not_lt.mp hge)
      rw [append_assoc, coord_append_right, Nat.add_sub_cancel_left, coord_append_left (by omega)]
    · rename_i hge
      obtain ⟨i, rfl⟩ := Nat.exists_eq_add_of_le (Nat.not_lt.mp hge)
      rw [← length_append, coord_append_right, Nat.add_sub_cancel_left]

omit [CommRing R] in
/-- A property of each coordinate of an operand and its dimension, one kind of dimensions after another. -/
theorem forall_operandCoords_iff {free : List Nat} {skip : Nat} {c k : Nat → Nat}
    (hbatching : batching.length = dims.lhsBatching.length)
    (hcontracting : contracting.length = dims.lhsContracting.length) {P : Nat → Nat → Prop} :
    (∀ p < (batching ++ contracting ++ free).length,
        P (dims.operandCoords skip c k p) (coord (batching ++ contracting ++ free) p)) ↔
      (∀ i < dims.lhsBatching.length, P (c i) (coord batching i)) ∧
        (∀ j < dims.lhsContracting.length, P (k j) (coord contracting j)) ∧
        ∀ i < free.length, P (c (dims.lhsBatching.length + i + skip)) (coord free i) := by
  simp only [length_append, hbatching, hcontracting, coord_append_three, DotDims.operandCoords]
  constructor
  · intro h
    refine ⟨fun i hi => ?_, fun j hj => ?_, fun i hi => ?_⟩
    · have hpos := h i (by omega)
      rwa [if_pos hi, if_pos hi] at hpos
    · have hpos := h (dims.lhsBatching.length + j) (by omega)
      rwa [if_neg (by omega), if_pos (by omega), if_neg (by omega), if_pos (by omega), Nat.add_sub_cancel_left] at hpos
    · have hpos := h (dims.lhsBatching.length + dims.lhsContracting.length + i) (by omega)
      have hidx : dims.lhsBatching.length + dims.lhsContracting.length + i -
          dims.lhsContracting.length = dims.lhsBatching.length + i := by omega
      rwa [if_neg (by omega), if_neg (by omega), if_neg (by omega), if_neg (by omega),
        Nat.add_sub_cancel_left, hidx] at hpos
  · intro ⟨hb, hk, hf⟩ p hp
    split
    · rename_i hlt
      exact hb p hlt
    · split
      · exact hk _ (by omega)
      · obtain ⟨i, rfl⟩ := Nat.exists_eq_add_of_le (Nat.not_lt.mp ‹¬p < _ + _›)
        have hidx : dims.lhsBatching.length + dims.lhsContracting.length + i -
            dims.lhsContracting.length = dims.lhsBatching.length + i := by omega
        rw [Nat.add_sub_cancel_left, hidx]
        exact hf i (by omega)

omit [CommRing R] in
theorem within_operand {shape free : List Nat} {skip : Nat} {c k : Nat → Nat}
    (hperm : (batching ++ contracting ++ free).Perm (range shape.length))
    (hbatching : batching.length = dims.lhsBatching.length)
    (hcontracting : contracting.length = dims.lhsContracting.length)
    (hb : ∀ i < dims.lhsBatching.length, c i < coord shape (coord batching i))
    (hk : ∀ j < dims.lhsContracting.length, k j < coord shape (coord contracting j))
    (hf : ∀ i < free.length, c (dims.lhsBatching.length + i + skip) < coord shape (coord free i)) :
    Within shape (place (batching ++ contracting ++ free) (dims.operandCoords skip c k)) := by
  refine within_place hperm fun p hp => ?_
  rw [← coord_eq_getElem hp]
  exact (forall_operandCoords_iff (P := fun m d => m < coord shape d) hbatching hcontracting).mpr
    ⟨hb, hk, hf⟩ p hp

section

variable {skip i j p q : Nat} {c k : Nat → Nat}

omit [CommRing R] in
theorem operandCoords_swap_batching (hi : i < dims.lhsBatching.length) (hj : j < dims.lhsBatching.length) (r : Nat) :
    dims.operandCoords skip (c ∘ swap i j) k r = dims.operandCoords skip c k (swap i j r) := by
  by_cases hr : r < dims.lhsBatching.length
  · have hr' : swap i j r < dims.lhsBatching.length := swap_lt hi hj hr
    rw [DotDims.operandCoords, DotDims.operandCoords, if_pos hr, if_pos hr', comp_apply]
  · have hfix : ∀ s, dims.lhsBatching.length ≤ s → swap i j s = s := fun s hs =>
      swap_apply_of_ne_of_ne (by omega) (by omega)
    rw [hfix r (Nat.not_lt.mp hr), DotDims.operandCoords, DotDims.operandCoords, if_neg hr, if_neg hr]
    split
    · rfl
    · rw [comp_apply, hfix _ (by omega)]

omit [CommRing R] in
theorem operandCoords_swap_free (r : Nat) :
    dims.operandCoords skip (c ∘ swap (dims.lhsBatching.length + i + skip) (dims.lhsBatching.length + j + skip)) k r =
      dims.operandCoords skip c k (swap (dims.lhsBatching.length + dims.lhsContracting.length + i)
        (dims.lhsBatching.length + dims.lhsContracting.length + j) r) := by
  by_cases hr : r < dims.lhsBatching.length + dims.lhsContracting.length
  · have hfix : swap (dims.lhsBatching.length + dims.lhsContracting.length + i)
        (dims.lhsBatching.length + dims.lhsContracting.length + j) r = r :=
      swap_apply_of_ne_of_ne (by omega) (by omega)
    rw [hfix, DotDims.operandCoords, DotDims.operandCoords]
    split
    · rw [comp_apply, swap_apply_of_ne_of_ne (by omega) (by omega)]
    · rfl
  · obtain ⟨s, rfl⟩ := Nat.exists_eq_add_of_le (Nat.not_lt.mp hr)
    have hfree : ∀ (c : Nat → Nat) s, dims.operandCoords skip c k
        (dims.lhsBatching.length + dims.lhsContracting.length + s) = c (dims.lhsBatching.length + s + skip) := by
      intro c s
      rw [DotDims.operandCoords, if_neg (by omega), if_neg (by omega)]
      congr 1
      omega
    rw [hfree, comp_apply]
    by_cases hsi : s = i
    · rw [hsi, swap_apply_left, swap_apply_left, hfree]
    · by_cases hsj : s = j
      · rw [hsj, swap_apply_right, swap_apply_right, hfree]
      · rw [swap_apply_of_ne_of_ne (by omega) (by omega), swap_apply_of_ne_of_ne (by omega) (by omega), hfree]

omit [CommRing R] in
theorem operandCoords_swap_other {n r : Nat} (hp : dims.lhsBatching.length ≤ p) (hq : dims.lhsBatching.length ≤ q)
    (hp' : p < dims.lhsBatching.length + skip ∨ dims.lhsBatching.length + skip + n ≤ p)
    (hq' : q < dims.lhsBatching.length + skip ∨ dims.lhsBatching.length + skip + n ≤ q)
    (hr : r < dims.lhsBatching.length + dims.lhsContracting.length + n) :
    dims.operandCoords skip (c ∘ swap p q) k r = dims.operandCoords skip c k r := by
  rw [DotDims.operandCoords, DotDims.operandCoords]
  split
  · rw [comp_apply, swap_apply_of_ne_of_ne (by omega) (by omega)]
  · split
    · rfl
    · rw [comp_apply, swap_apply_of_ne_of_ne (by omega) (by omega)]

end

omit [CommRing R] in
theorem contracting_lt {k : List Nat} (hk : k ∈ indices (dims.lhsContracting.map (coord x.shape))) :
    ∀ j < dims.lhsContracting.length, coord k j < coord x.shape (coord dims.lhsContracting j) := by
  intro j hj
  have hlt := (mem_indices_iff.mp hk).2 j (by rwa [length_map])
  rwa [coord_map _ _ hj, ← coord_eq_getElem hj] at hlt

namespace DotDims.Layout

variable (h : dims.Layout x y t)
include h

theorem length_lhs : dims.lhsBatching.length + dims.lhsContracting.length +
    (dims.lhsFree x.shape.length).length = x.shape.length := by
  rw [← length_lhsDims, h.lhs_perm.length_eq, length_range]

theorem length_rhs : dims.lhsBatching.length + dims.lhsContracting.length +
    (dims.rhsFree y.shape.length).length = y.shape.length := by
  rw [← h.ok.batching_length, ← h.ok.contracting_length, ← length_rhsDims, h.rhs_perm.length_eq, length_range]

theorem length_rhsDims : (dims.rhsDims y.shape.length).length =
    dims.lhsBatching.length + dims.lhsContracting.length + (dims.rhsFree y.shape.length).length := by
  rw [DotDims.length_rhsDims, h.ok.batching_length, h.ok.contracting_length]

variable {i j : Nat}

theorem size_rhsBatching (hi : i < dims.lhsBatching.length) :
    coord x.shape (coord dims.lhsBatching i) = coord y.shape (coord dims.rhsBatching i) := by
  have hi' : i < dims.rhsBatching.length := h.ok.batching_length.symm ▸ hi
  have heq := congrArg (coord · i) h.ok.batching_size
  rwa [coord_map _ _ hi, coord_map _ _ hi', ← coord_eq_getElem hi, ← coord_eq_getElem hi'] at heq

theorem size_rhsContracting (hj : j < dims.lhsContracting.length) :
    coord x.shape (coord dims.lhsContracting j) = coord y.shape (coord dims.rhsContracting j) := by
  have hj' : j < dims.rhsContracting.length := h.ok.contracting_length.symm ▸ hj
  have heq := congrArg (coord · j) h.ok.contracting_size
  rwa [coord_map _ _ hj, coord_map _ _ hj', ← coord_eq_getElem hj, ← coord_eq_getElem hj'] at heq

theorem coord_eq_of_forall {s : Nat} (hx : ∀ d < x.shape.length, coord x.shape d = s)
    (hy : ∀ d < y.shape.length, coord y.shape d = s) {d : Nat} (hd : d < t.shape.length) : coord t.shape d = s := by
  have hlhs : ∀ e ∈ dims.lhsDims x.shape.length, coord x.shape e = s := fun e he =>
    hx e (List.mem_range.mp (h.lhs_perm.mem_iff.mp he))
  have hrhs : ∀ e ∈ dims.rhsDims y.shape.length, coord y.shape e = s := fun e he =>
    hy e (List.mem_range.mp (h.rhs_perm.mem_iff.mp he))
  rw [h.rank_eq] at hd
  by_cases hbatching : d < dims.lhsBatching.length
  · rw [h.size_batching d hbatching, coord_eq_getElem hbatching]
    exact hlhs _ (mem_append_left _ (mem_append_left _ (getElem_mem hbatching)))
  · obtain ⟨i, rfl⟩ := Nat.exists_eq_add_of_le (Nat.not_lt.mp hbatching)
    by_cases hfree : i < (dims.lhsFree x.shape.length).length
    · rw [h.size_lhsFree i hfree, coord_eq_getElem hfree]
      exact hlhs _ (mem_append_right _ (getElem_mem hfree))
    · obtain ⟨j, rfl⟩ := Nat.exists_eq_add_of_le (Nat.not_lt.mp hfree)
      have hj : j < (dims.rhsFree y.shape.length).length := by omega
      rw [← add_assoc, h.size_rhsFree j hj, coord_eq_getElem hj]
      exact hrhs _ (mem_append_right _ (getElem_mem hj))

section

variable {c k : Nat → Nat} (hc : Within t.shape c)
  (hk : ∀ j < dims.lhsContracting.length, k j < coord x.shape (coord dims.lhsContracting j))

include hc hk

theorem within_lhs :
    Within x.shape (place (dims.lhsDims x.shape.length) (dims.operandCoords 0 c k)) := by
  refine within_operand h.lhs_perm rfl rfl (fun i hi => ?_) hk fun i hi => ?_
  · rw [← h.size_batching i hi]
    exact hc i (by rw [h.rank_eq]; omega)
  · rw [← h.size_lhsFree i hi]
    exact hc _ (by rw [h.rank_eq]; omega)

theorem within_rhs : Within y.shape (place (dims.rhsDims y.shape.length)
      (dims.operandCoords (dims.lhsFree x.shape.length).length c k)) := by
  refine within_operand h.rhs_perm h.ok.batching_length h.ok.contracting_length (fun i hi => ?_)
    (fun j hj => ?_) fun i hi => ?_
  · rw [← h.size_rhsBatching hi, ← h.size_batching i hi]
    exact hc i (by rw [h.rank_eq]; omega)
  · rw [← h.size_rhsContracting hj]
    exact hk j hj
  · rw [← h.size_rhsFree i hi, add_right_comm]
    exact hc _ (by rw [h.rank_eq]; omega)

end

theorem swappable_batching (hi : i < dims.lhsBatching.length) (hj : j < dims.lhsBatching.length)
    (hx : Swappable x (coord dims.lhsBatching i) (coord dims.lhsBatching j))
    (hy : Swappable y (coord dims.rhsBatching i) (coord dims.rhsBatching j)) : Swappable t i j := by
  refine ⟨by rw [h.size_batching i hi, h.size_batching j hj, hx.size_eq], fun c hc => ?_⟩
  have hlhs := h.length_lhs
  have hrhs := h.length_rhs
  rw [h.read_eq, h.read_eq]
  refine sum_congr rfl fun k hk => congrArg₂ _ ?_ ?_
  · refine read_place_swap h.lhs_perm (h.within_lhs hc (contracting_lt hk)) ?_ ?_
      (fun r _ => operandCoords_swap_batching hi hj r) ?_
    · rw [length_lhsDims]
      omega
    · rw [length_lhsDims]
      omega
    · rwa [lhsDims, coord_append_three, coord_append_three, if_pos hi, if_pos hj]
  · refine read_place_swap h.rhs_perm (h.within_rhs hc (contracting_lt hk)) ?_ ?_
      (fun r _ => operandCoords_swap_batching hi hj r) ?_
    · rw [h.length_rhsDims]
      omega
    · rw [h.length_rhsDims]
      omega
    · rwa [rhsDims, coord_append_three, coord_append_three, h.ok.batching_length, if_pos hi, if_pos hj]

theorem swappable_lhsFree (hi : i < (dims.lhsFree x.shape.length).length)
    (hj : j < (dims.lhsFree x.shape.length).length)
    (hx : Swappable x (coord (dims.lhsFree x.shape.length) i) (coord (dims.lhsFree x.shape.length) j)) :
    Swappable t (dims.lhsBatching.length + i) (dims.lhsBatching.length + j) := by
  refine ⟨by rw [h.size_lhsFree i hi, h.size_lhsFree j hj, hx.size_eq], fun c hc => ?_⟩
  rw [h.read_eq, h.read_eq]
  refine sum_congr rfl fun k hk => congrArg₂ _ ?_ ?_
  · refine read_place_swap h.lhs_perm (h.within_lhs hc (contracting_lt hk)) ?_ ?_
      (fun r _ => operandCoords_swap_free r) ?_
    · rw [length_lhsDims]
      omega
    · rw [length_lhsDims]
      omega
    · rw [lhsDims, coord_append_three, coord_append_three, if_neg (by omega), if_neg (by omega),
        if_neg (by omega), if_neg (by omega), Nat.add_sub_cancel_left, Nat.add_sub_cancel_left]
      exact hx
  · refine read_place_eq h.rhs_perm fun r hr => ?_
    rw [h.length_rhsDims] at hr
    exact operandCoords_swap_other (by omega) (by omega) (.inl (by omega)) (.inl (by omega)) hr

theorem swappable_rhsFree (hi : i < (dims.rhsFree y.shape.length).length)
    (hj : j < (dims.rhsFree y.shape.length).length)
    (hy : Swappable y (coord (dims.rhsFree y.shape.length) i) (coord (dims.rhsFree y.shape.length) j)) :
    Swappable t (dims.lhsBatching.length + (dims.lhsFree x.shape.length).length + i)
      (dims.lhsBatching.length + (dims.lhsFree x.shape.length).length + j) := by
  refine ⟨by rw [h.size_rhsFree i hi, h.size_rhsFree j hj, hy.size_eq], fun c hc => ?_⟩
  rw [h.read_eq, h.read_eq]
  refine sum_congr rfl fun k hk => congrArg₂ _ ?_ ?_
  · refine read_place_eq h.lhs_perm fun r hr => ?_
    rw [length_lhsDims] at hr
    exact operandCoords_swap_other (by omega) (by omega) (.inr (by omega)) (.inr (by omega)) hr
  · rw [add_right_comm _ _ i, add_right_comm _ _ j]
    refine read_place_swap h.rhs_perm (h.within_rhs hc (contracting_lt hk)) ?_ ?_
      (fun r _ => operandCoords_swap_free r) ?_
    · rw [h.length_rhsDims]
      omega
    · rw [h.length_rhsDims]
      omega
    · rw [rhsDims, coord_append_three, coord_append_three, h.ok.batching_length,
        h.ok.contracting_length, if_neg (by omega), if_neg (by omega), if_neg (by omega),
        if_neg (by omega), Nat.add_sub_cancel_left, Nat.add_sub_cancel_left]
      exact hy

end DotDims.Layout

end

end Tensor
