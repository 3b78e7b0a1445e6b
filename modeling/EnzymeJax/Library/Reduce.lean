import EnzymeJax.Library.Gather
import Mathlib.Data.Finset.Fold

/-!
# Reductions

A reduction with a commutative and associative operation, from an init value that need not be neutral. A row of a
padded operand takes in the elements of one row and copies of the padding value, or those copies only.
-/

namespace Tensor

open Finset

variable {α β : Type*}

section

variable (op : α → α → α) [Std.Commutative op] [Std.Associative op]

/-- The elements at the positions along the dimensions `dims`, with an init value. -/
def reduce (init : α) (dims : List Nat) (x : Tensor α) : Option (Tensor α) :=
  if dims.Nodup ∧ ∀ d ∈ dims, d < x.shape.length then
    some ⟨dropDims dims 0 x.shape, fun o =>
      ((indices x.shape).filter fun idx => dropDims dims 0 idx = o).fold op init x.get⟩
  else none

omit [Std.Commutative op] [Std.Associative op] in
/-- What `n` copies of `a` make of `b`. -/
def absorb (a : α) (n : Nat) (b : α) : α := (op a)^[n] b

variable {s t : Finset β} {f : β → α} {a b : α}

theorem fold_union [DecidableEq β] (h : Disjoint s t) : (s ∪ t).fold op b f = s.fold op (t.fold op b f) f := by
  induction s using Finset.induction_on with
  | empty => rw [empty_union, fold_empty]
  | insert a s ha ih =>
    obtain ⟨hat, hst⟩ := disjoint_insert_left.mp h
    rw [insert_union, fold_insert (by rw [mem_union]; tauto), ih hst, fold_insert ha]

theorem fold_const_eq [DecidableEq β] (s : Finset β) : s.fold op b (fun _ => a) = absorb op a s.card b := by
  induction s using Finset.induction_on with
  | empty => rfl
  | insert c s hc ih =>
    rw [fold_insert hc, ih, card_insert_of_notMem hc, absorb, absorb, Function.iterate_succ_apply']

theorem op_fold [DecidableEq β] (s : Finset β) : op a (s.fold op b f) = s.fold op (op a b) f := by
  induction s using Finset.induction_on with
  | empty => rfl
  | insert c s hc ih =>
    rw [fold_insert hc, fold_insert hc, ← ih]
    ac_rfl

theorem absorb_fold [DecidableEq β] (n : Nat) (s : Finset β) :
    absorb op a n (s.fold op b f) = s.fold op (absorb op a n b) f := by
  induction n with
  | zero => rfl
  | succ n ih =>
    have hsucc : ∀ c, absorb op a (n + 1) c = op a (absorb op a n c) := fun c =>
      Function.iterate_succ_apply' _ _ _
    rw [hsucc, hsucc, ih, op_fold op]

end

/-! ### Dimensions that are reduced -/

section

variable {γ : Type*} {dims : List Nat} {d : Nat} {shape idx o : List Nat}

/-- The number of positions along the dimensions `dims`, counting dimensions from `d`. -/
def dimsSize (dims : List Nat) : Nat → List Nat → Nat
  | _, [] => 1
  | d, n :: shape => (if d ∈ dims then n else 1) * dimsSize dims (d + 1) shape

theorem dropDims_zipWith (f : α → β → γ) {as : List α} {bs : List β} (h : as.length = bs.length) :
    dropDims dims d (List.zipWith f as bs) = List.zipWith f (dropDims dims d as) (dropDims dims d bs) := by
  induction as generalizing bs d with
  | nil =>
    cases bs with
    | nil => rfl
    | cons b bs => cases h
  | cons a as ih =>
    cases bs with
    | nil => cases h
    | cons b bs =>
      rw [List.zipWith_cons_cons, dropDims, dropDims, dropDims, ih (add_right_cancel h)]
      split
      · rfl
      · rfl

theorem mem_of_mem_dropDims {a : α} {l : List α} (h : a ∈ dropDims dims d l) : a ∈ l := by
  induction l generalizing d with
  | nil => exact h
  | cons b l ih =>
    rw [dropDims] at h
    split at h
    · exact List.mem_cons_of_mem _ (ih h)
    · rcases List.mem_cons.mp h with rfl | h
      · exact List.mem_cons_self
      · exact List.mem_cons_of_mem _ (ih h)

theorem length_dropDims {as : List α} {bs : List β} (h : as.length = bs.length) :
    (dropDims dims d as).length = (dropDims dims d bs).length := by
  induction as generalizing bs d with
  | nil =>
    cases bs with
    | nil => rfl
    | cons b bs => cases h
  | cons a as ih =>
    cases bs with
    | nil => cases h
    | cons b bs =>
      rw [dropDims, dropDims]
      split
      · exact ih (add_right_cancel h)
      · rw [List.length_cons, List.length_cons, ih (add_right_cancel h)]

theorem dropDims_mem_indices (h : idx ∈ indices shape) : dropDims dims d idx ∈ indices (dropDims dims d shape) := by
  induction shape generalizing d idx with
  | nil =>
    obtain rfl := mem_indices_nil.mp h
    exact mem_indices_nil.mpr rfl
  | cons n shape ih =>
    obtain ⟨i, hi, rest, hrest, rfl⟩ := mem_indices_cons.mp h
    rw [dropDims, dropDims]
    split
    · exact ih hrest
    · exact cons_mem_indices.mpr ⟨hi, ih hrest⟩

theorem card_row (ho : o ∈ indices (dropDims dims d shape)) :
    ((indices shape).filter fun idx => dropDims dims d idx = o).card = dimsSize dims d shape := by
  induction shape generalizing d o with
  | nil =>
    obtain rfl := mem_indices_nil.mp ho
    rfl
  | cons n shape ih =>
    rw [dropDims] at ho
    rw [indices, filter_map, card_map, dimsSize]
    split
    · rename_i hd
      rw [if_pos hd] at ho
      have hfilter : (range n ×ˢ indices shape).filter
          ((fun idx => dropDims dims d idx = o) ∘ fun p => p.1 :: p.2) =
            range n ×ˢ (indices shape).filter fun idx => dropDims dims (d + 1) idx = o := by
        ext p
        simp [dropDims, hd, and_assoc]
      refine (congrArg card hfilter).trans ?_
      rw [card_product, card_range, ih ho]
    · rename_i hd
      rw [if_neg hd] at ho
      obtain ⟨i, hi, rest, hrest, rfl⟩ := mem_indices_cons.mp ho
      have hfilter : (range n ×ˢ indices shape).filter
          ((fun idx => dropDims dims d idx = i :: rest) ∘ fun p => p.1 :: p.2) =
            {i} ×ˢ (indices shape).filter fun idx => dropDims dims (d + 1) idx = rest := by
        ext p
        simp only [dropDims, hd, mem_filter, mem_product, mem_range, mem_singleton, Function.comp_apply,
          if_false, List.cons.injEq]
        constructor
        · rintro ⟨⟨-, hp⟩, heq, hrest⟩
          exact ⟨heq, hp, hrest⟩
        · rintro ⟨rfl, hp, hrest⟩
          exact ⟨⟨hi, hp⟩, rfl, hrest⟩
      refine (congrArg card hfilter).trans ?_
      rw [card_product, card_singleton, ih hrest]

end

/-! ### Padding that is not negative -/

namespace PadDim

def NonNeg (d : PadDim) : Prop := 0 ≤ d.low ∧ 0 ≤ d.high ∧ 0 ≤ d.interior

instance (d : PadDim) : Decidable d.NonNeg := inferInstanceAs (Decidable (_ ∧ _ ∧ _))

/-- Where an element is put. -/
def target (d : PadDim) (i : Nat) : Nat := (d.low + i * (d.interior + 1)).toNat

section

variable {d : PadDim} {n i q : Nat}

section

variable (h : d.NonNeg)

include h

theorem target_eq (i : Nat) : (d.target i : Int) = d.low + i * (d.interior + 1) := by
  have hmul : 0 ≤ (i : Int) * (d.interior + 1) := mul_nonneg (Int.natCast_nonneg i) (by have := h.2.2; omega)
  exact Int.toNat_of_nonneg (add_nonneg h.1 hmul)

theorem source_eq_some_iff : d.source n q = some i ↔ i < n ∧ q = d.target i := by
  rw [source_eq_some h.2.2, ← target_eq h, Nat.cast_inj]

theorem target_lt (hi : i < n) : d.target i < (d.size n).toNat := by
  obtain ⟨hlow, hhigh, hinterior⟩ := h
  have htarget := target_eq ⟨hlow, hhigh, hinterior⟩ i
  have hmul : (i : Int) * d.interior ≤ (n - 1 : Nat) * d.interior :=
    mul_le_mul_of_nonneg_right (by omega) hinterior
  rw [mul_add, mul_one] at htarget
  rw [size, dilated]
  omega

theorem le_size (n : Nat) : n ≤ (d.size n).toNat := by
  obtain ⟨hlow, hhigh, hinterior⟩ := h
  have hmul : 0 ≤ ((n - 1 : Nat) : Int) * d.interior := mul_nonneg (Int.natCast_nonneg _) hinterior
  rw [size, dilated]
  omega

theorem ok_of_nonNeg (n : Nat) : d.Ok n := by
  obtain ⟨hlow, hhigh, hinterior⟩ := h
  have hmul : 0 ≤ ((n - 1 : Nat) : Int) * d.interior := mul_nonneg (Int.natCast_nonneg _) hinterior
  refine ⟨hinterior, ?_⟩
  rw [size, dilated]
  omega

/-- A position is padding where the dimension is longer than it was. -/
theorem exists_source_none_iff :
    (∃ q < (d.size n).toNat, d.source n q = none) ↔ (d.size n).toNat ≠ n := by
  constructor
  · rintro ⟨q, hq, hnone⟩ heq
    obtain ⟨hlow, hhigh, hinterior⟩ := h
    have hmul : 0 ≤ ((n - 1 : Nat) : Int) * d.interior := mul_nonneg (Int.natCast_nonneg _) hinterior
    rw [size, dilated] at heq hq
    have hzero : ((n - 1 : Nat) : Int) * d.interior = 0 := by omega
    have hqzero : (q : Int) * d.interior = 0 := by
      rcases Int.mul_eq_zero.mp hzero with hn | hd
      · have : (q : Int) = 0 := by omega
        rw [this, zero_mul]
      · rw [hd, mul_zero]
    have htarget := target_eq ⟨hlow, hhigh, hinterior⟩ q
    rw [mul_add, mul_one, hqzero] at htarget
    have hsome : d.source n q = some q :=
      (source_eq_some_iff ⟨hlow, hhigh, hinterior⟩).mpr ⟨by omega, by omega⟩
    rw [hsome] at hnone
    cases hnone
  · intro hne
    by_contra hall
    simp only [not_exists, not_and] at hall
    have hsubset : range (d.size n).toNat ⊆ (range n).image d.target := by
      intro q hq
      obtain ⟨i, hi⟩ := Option.ne_none_iff_exists'.mp (hall q (mem_range.mp hq))
      obtain ⟨hi, heq⟩ := (source_eq_some_iff h).mp hi
      exact mem_image.mpr ⟨i, mem_range.mpr hi, heq.symm⟩
    have hcard := (card_le_card hsubset).trans card_image_le
    rw [card_range, card_range] at hcard
    exact hne (le_antisymm hcard (le_size h n))

end

end

end PadDim

/-- The element that is at an index, if it is not padding. -/
def padSource (ds : List PadDim) (shape q : List Nat) : Option (List Nat) :=
  allSome (List.zipWith3 (fun d n (q : Nat) => d.source n q) ds shape q)

def padShape (ds : List PadDim) (shape : List Nat) : List Nat :=
  List.zipWith (fun d n => (d.size n).toNat) ds shape

def padTarget (ds : List PadDim) (idx : List Nat) : List Nat := List.zipWith PadDim.target ds idx

section

variable {ds : List PadDim} {shape idx q o : List Nat} {dims : List Nat}

theorem padSource_eq_some_iff (hnonneg : ∀ d ∈ ds, d.NonNeg) (hds : ds.length = shape.length)
    (hq : q.length = shape.length) : padSource ds shape q = some idx ↔ idx ∈ indices shape ∧ q = padTarget ds idx := by
  induction shape generalizing ds q idx with
  | nil =>
    obtain rfl := List.length_eq_zero_iff.mp hds
    obtain rfl := List.length_eq_zero_iff.mp hq
    rw [mem_indices_nil]
    refine ⟨fun h => ⟨(Option.some.inj h).symm, rfl⟩, fun h => by rw [h.1]; rfl⟩
  | cons n shape ih =>
    obtain ⟨d, ds, rfl⟩ := List.exists_cons_of_length_eq_add_one hds
    obtain ⟨i, q, rfl⟩ := List.exists_cons_of_length_eq_add_one hq
    obtain ⟨hd, hrest⟩ := List.forall_mem_cons.mp hnonneg
    have hhead : ∀ j, d.source n i = some j ↔ j < n ∧ i = d.target j := fun j => PadDim.source_eq_some_iff hd
    have htail : ∀ js, padSource ds shape q = some js ↔ js ∈ indices shape ∧ q = padTarget ds js := fun js =>
      ih hrest (add_right_cancel hds) (add_right_cancel hq)
    rw [padSource, List.zipWith3]
    constructor
    · intro h
      cases hi : d.source n i with
      | none =>
        rw [hi] at h
        cases h
      | some j =>
        rw [hi] at h
        obtain ⟨js, hjs, rfl⟩ := Option.map_eq_some_iff.mp h
        obtain ⟨hmem, rfl⟩ := (htail js).mp hjs
        obtain ⟨hj, rfl⟩ := (hhead j).mp hi
        exact ⟨cons_mem_indices.mpr ⟨hj, hmem⟩, rfl⟩
    · rintro ⟨hmem, heq⟩
      obtain ⟨j, hj, js, hjs, rfl⟩ := mem_indices_cons.mp hmem
      rw [padTarget, List.zipWith_cons_cons, List.cons.injEq] at heq
      rw [(hhead j).mpr ⟨hj, heq.1⟩, allSome]
      exact congrArg (Option.map _) ((htail js).mpr ⟨hjs, heq.2⟩)

theorem padTarget_mem (hnonneg : ∀ d ∈ ds, d.NonNeg) (hds : ds.length = shape.length) (hidx : idx ∈ indices shape) :
    padTarget ds idx ∈ indices (padShape ds shape) := by
  induction shape generalizing ds idx with
  | nil =>
    obtain rfl := List.length_eq_zero_iff.mp hds
    exact mem_indices_nil.mpr rfl
  | cons n shape ih =>
    obtain ⟨d, ds, rfl⟩ := List.exists_cons_of_length_eq_add_one hds
    obtain ⟨hd, hrest⟩ := List.forall_mem_cons.mp hnonneg
    obtain ⟨j, hj, js, hjs, rfl⟩ := mem_indices_cons.mp hidx
    exact cons_mem_indices.mpr ⟨PadDim.target_lt hd hj, ih hrest (add_right_cancel hds) hjs⟩

theorem length_padShape (hds : ds.length = shape.length) : (padShape ds shape).length = shape.length := by
  rw [padShape, List.length_zipWith, hds, min_self]

theorem padSource_dropDims (hnonneg : ∀ d ∈ ds, d.NonNeg) (hds : ds.length = shape.length)
    (hq : q.length = shape.length) (h : padSource ds shape q = some idx) :
    padSource (dropDims dims 0 ds) (dropDims dims 0 shape) (dropDims dims 0 q) = some (dropDims dims 0 idx) := by
  obtain ⟨hmem, rfl⟩ := (padSource_eq_some_iff hnonneg hds hq).mp h
  have hlen := length_of_mem_indices hmem
  refine (padSource_eq_some_iff (fun d hd => hnonneg d (mem_of_mem_dropDims hd)) (length_dropDims hds)
    (length_dropDims hq)).mpr ⟨dropDims_mem_indices hmem, ?_⟩
  exact dropDims_zipWith _ (hds.trans hlen.symm)

/-- Some index is padding where there are indices, and more than there were. -/
theorem exists_padding_iff (hnonneg : ∀ d ∈ ds, d.NonNeg) (hds : ds.length = shape.length) :
    (∃ o ∈ indices (padShape ds shape), padSource ds shape o = none) ↔
      (∀ n ∈ padShape ds shape, 0 < n) ∧ padShape ds shape ≠ shape := by
  induction shape generalizing ds with
  | nil =>
    obtain rfl := List.length_eq_zero_iff.mp hds
    refine ⟨fun ⟨o, ho, hnone⟩ => ?_, fun h => absurd rfl h.2⟩
    obtain rfl := mem_indices_nil.mp ho
    cases hnone
  | cons n shape ih =>
    obtain ⟨d, ds, rfl⟩ := List.exists_cons_of_length_eq_add_one hds
    obtain ⟨hd, hrest⟩ := List.forall_mem_cons.mp hnonneg
    have htail := ih hrest (add_right_cancel hds)
    have hshape : padShape (d :: ds) (n :: shape) = (d.size n).toNat :: padShape ds shape := rfl
    rw [hshape, List.forall_mem_cons]
    constructor
    · rintro ⟨o, ho, hnone⟩
      obtain ⟨q, hq, rest, hrest', rfl⟩ := mem_indices_cons.mp ho
      have hpos : ∀ m ∈ padShape ds shape, 0 < m := by
        intro m hm
        obtain ⟨e, he, rfl⟩ := List.getElem_of_mem hm
        have hlt := coord_lt hrest' he
        rw [coord_eq_getElem he] at hlt
        exact (Nat.zero_le _).trans_lt hlt
      refine ⟨⟨(Nat.zero_le _).trans_lt hq, hpos⟩, fun heq => ?_⟩
      obtain ⟨hsize, hshape'⟩ := List.cons.inj heq
      rw [padSource, List.zipWith3] at hnone
      cases hsrc : d.source n q with
      | none => exact (PadDim.exists_source_none_iff hd).mp ⟨q, hq, hsrc⟩ hsize
      | some j =>
        rw [hsrc, allSome] at hnone
        exact (htail.mp ⟨rest, hrest', Option.map_eq_none_iff.mp hnone⟩).2 hshape'
    · rintro ⟨⟨hq, hpos⟩, hne⟩
      by_cases hsize : (d.size n).toNat = n
      · have hne' : padShape ds shape ≠ shape := fun heq => hne (by rw [hsize, heq])
        obtain ⟨rest, hrest', hnone⟩ := htail.mpr ⟨hpos, hne'⟩
        refine ⟨0 :: rest, cons_mem_indices.mpr ⟨hq, hrest'⟩, ?_⟩
        rw [padSource, List.zipWith3]
        cases d.source n 0 with
        | none => rfl
        | some j => exact congrArg (Option.map _) hnone
      · obtain ⟨q, hq, hnone⟩ := (PadDim.exists_source_none_iff hd).mpr hsize
        refine ⟨q :: _, cons_mem_indices.mpr ⟨hq, zeros_mem_indices hpos⟩, ?_⟩
        rw [padSource, List.zipWith3, hnone]
        rfl

end

/-! ### Reductions of padded operands -/

section

variable (op : α → α → α) [Std.Commutative op] [Std.Associative op] {ds : List PadDim} {shape o o' : List Nat}
  {dims : List Nat} {init p : α} {x : Tensor α}

section

variable (hnonneg : ∀ d ∈ ds, d.NonNeg) (hds : ds.length = x.shape.length)
  (ho : o ∈ indices (dropDims dims 0 (padShape ds x.shape)))

include hnonneg hds ho

theorem fold_padded_row (hsrc : padSource (dropDims dims 0 ds) (dropDims dims 0 x.shape) o = some o') :
    ((indices (padShape ds x.shape)).filter fun q => dropDims dims 0 q = o).fold op init
        (fun q => ((padSource ds x.shape q).map x.get).getD p) =
      absorb op p (dimsSize dims 0 (padShape ds x.shape) - dimsSize dims 0 x.shape)
        (((indices x.shape).filter fun idx => dropDims dims 0 idx = o').fold op init x.get) := by
  have hkeptNonneg : ∀ d ∈ dropDims dims 0 ds, d.NonNeg := fun d hd => hnonneg d (mem_of_mem_dropDims hd)
  have hlengthO : o.length = (dropDims dims 0 x.shape).length :=
    (length_of_mem_indices ho).trans (length_dropDims (length_padShape hds))
  obtain ⟨ho', rfl⟩ := (padSource_eq_some_iff hkeptNonneg (length_dropDims hds) hlengthO).mp hsrc
  have hlen : ∀ q ∈ indices (padShape ds x.shape), q.length = x.shape.length := fun q hq =>
    (length_of_mem_indices hq).trans (length_padShape hds)
  have hiff : ∀ q ∈ indices (padShape ds x.shape), ∀ idx, padSource ds x.shape q = some idx ↔
      idx ∈ indices x.shape ∧ q = padTarget ds idx := fun q hq idx =>
    padSource_eq_some_iff hnonneg hds (hlen q hq)
  set row := (indices (padShape ds x.shape)).filter fun q => dropDims dims 0 q = padTarget (dropDims dims 0 ds) o'
  set rowOfX := (indices x.shape).filter fun idx => dropDims dims 0 idx = o'
  have htarget : ∀ idx ∈ rowOfX, padTarget ds idx ∈ row ∧ padSource ds x.shape (padTarget ds idx) = some idx := by
    intro idx hidx
    obtain ⟨hmem, hdrop⟩ := mem_filter.mp hidx
    have hpadded := padTarget_mem hnonneg hds hmem
    refine ⟨mem_filter.mpr ⟨hpadded, ?_⟩, (hiff _ hpadded idx).mpr ⟨hmem, rfl⟩⟩
    rw [← hdrop, padTarget, dropDims_zipWith _ (hds.trans (length_of_mem_indices hmem).symm), padTarget]
  have hinj : Set.InjOn (padTarget ds) rowOfX := by
    intro idx hidx idx' hidx' heq
    have h := (htarget idx hidx).2
    rw [heq, (htarget idx' hidx').2] at h
    exact (Option.some.inj h).symm
  have hsubset : rowOfX.image (padTarget ds) ⊆ row := by
    intro q hq
    obtain ⟨idx, hidx, rfl⟩ := mem_image.mp hq
    exact (htarget idx hidx).1
  -- where the row is no image of a position of the operand, it is padding
  have hpadding : ∀ q ∈ row \ rowOfX.image (padTarget ds), padSource ds x.shape q = none := by
    intro q hq
    obtain ⟨hqrow, hqimage⟩ := mem_sdiff.mp hq
    obtain ⟨hqmem, hqdrop⟩ := mem_filter.mp hqrow
    by_contra hsome
    obtain ⟨idx, hidx⟩ := Option.ne_none_iff_exists'.mp hsome
    obtain ⟨hmem, rfl⟩ := (hiff q hqmem idx).mp hidx
    refine hqimage (mem_image.mpr ⟨idx, mem_filter.mpr ⟨hmem, ?_⟩, rfl⟩)
    have hdropped : padSource (dropDims dims 0 ds) (dropDims dims 0 x.shape) (dropDims dims 0 (padTarget ds idx)) =
        some (dropDims dims 0 idx) := padSource_dropDims hnonneg hds (hlen _ hqmem) hidx
    rw [hqdrop, hsrc] at hdropped
    exact (Option.some.inj hdropped).symm
  have hcard : (row \ rowOfX.image (padTarget ds)).card =
      dimsSize dims 0 (padShape ds x.shape) - dimsSize dims 0 x.shape := by
    rw [card_sdiff_of_subset hsubset, card_image_of_injOn hinj, card_row ho, card_row ho']
  rw [← sdiff_union_of_subset hsubset, fold_union op sdiff_disjoint, fold_image hinj, ← hcard, ← fold_const_eq]
  have hfirst : rowOfX.fold op init ((fun q => ((padSource ds x.shape q).map x.get).getD p) ∘ padTarget ds) =
      rowOfX.fold op init x.get := by
    refine fold_congr fun idx hidx => ?_
    rw [Function.comp_apply, (htarget idx hidx).2]
    rfl
  rw [hfirst]
  refine fold_congr fun q hq => ?_
  rw [hpadding q hq]
  rfl

theorem fold_padding_row (hsrc : padSource (dropDims dims 0 ds) (dropDims dims 0 x.shape) o = none) :
    ((indices (padShape ds x.shape)).filter fun q => dropDims dims 0 q = o).fold op init
        (fun q => ((padSource ds x.shape q).map x.get).getD p) =
      absorb op p (dimsSize dims 0 (padShape ds x.shape)) init := by
  rw [← card_row ho, ← fold_const_eq]
  refine fold_congr fun q hq => ?_
  obtain ⟨hmem, rfl⟩ := mem_filter.mp hq
  have hlen : q.length = x.shape.length := (length_of_mem_indices hmem).trans (length_padShape hds)
  cases hqs : padSource ds x.shape q with
  | none => rfl
  | some idx =>
    rw [padSource_dropDims hnonneg hds hlen hqs] at hsrc
    cases hsrc

end

end

end Tensor
