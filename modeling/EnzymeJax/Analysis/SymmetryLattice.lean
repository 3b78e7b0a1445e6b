import EnzymeJax.Analysis.PartialSymmetry
import EnzymeJax.Library.UpdateLine
import Mathlib.Logic.Relation
import Mathlib.Data.Finset.Card

/-!
# The lattice of partial symmetries

Equal partitions are equal lists of ids. The meet of two partitions relates what both relate, the join what a
chain of both relates, and a cell of the analysis changes at most as often as the tensor has dimensions.
-/

namespace EnzymeJax.PartialSymmetryAnnotation

open Tensor Relation List Equiv

variable {a b lhs rhs : PartialSymmetryAnnotation} {E : Setoid Nat} {i j : Nat}

/-! ### Canonical ids -/

def Canonical (a : PartialSymmetryAnnotation) : Prop := a.canonicalize = a

instance (a : PartialSymmetryAnnotation) : Decidable a.Canonical := inferInstanceAs (Decidable (_ = _))

theorem idxOf_map_of_injOn {f : Nat → Nat} {l : List Nat} {n : Nat} (hf : ∀ m ∈ l, f m = f n → m = n) :
    (l.map f).idxOf (f n) = l.idxOf n := by
  induction l with
  | nil => rfl
  | cons m l ih =>
    obtain ⟨hm, hl⟩ := forall_mem_cons.mp hf
    rw [map_cons, idxOf_cons, idxOf_cons, ih hl]
    have hiff : (f m == f n) = (m == n) := by
      rw [Bool.eq_iff_iff, beq_iff_eq, beq_iff_eq]
      exact ⟨hm, congrArg f⟩
    rw [hiff]

theorem canonicalizeFrom_map {f : Nat → Nat} {seen ids : List Nat}
    (hf : ∀ n ∈ seen ++ ids, ∀ m ∈ seen ++ ids, f n = f m → n = m) :
    canonicalizeFrom (seen.map f) (ids.map f) = canonicalizeFrom seen ids := by
  induction ids generalizing seen with
  | nil => rfl
  | cons id ids ih =>
    have hid : id ∈ seen ++ id :: ids := mem_append_right _ mem_cons_self
    have hmem : f id ∈ seen.map f ↔ id ∈ seen := by
      rw [mem_map]
      constructor
      · intro h
        obtain ⟨n, hn, heq⟩ := h
        exact hf n (mem_append_left _ hn) id hid heq ▸ hn
      · exact fun h => ⟨id, h, rfl⟩
    have hseen : (if f id ∈ seen.map f then seen.map f else seen.map f ++ [f id]) =
        (if id ∈ seen then seen else seen ++ [id]).map f := by
      by_cases h : id ∈ seen
      · rw [if_pos h, if_pos (hmem.mpr h)]
      · rw [if_neg h, if_neg (mt hmem.mp h), map_append]
        rfl
    have hsub : ∀ n ∈ (if id ∈ seen then seen else seen ++ [id]) ++ ids, n ∈ seen ++ id :: ids := by
      intro n hn
      split at hn <;> simp only [mem_append, mem_cons] at hn ⊢ <;> tauto
    rw [map_cons, canonicalizeFrom, canonicalizeFrom, hseen, ih fun n hn m hm => hf n (hsub n hn) m (hsub m hm),
      idxOf_map_of_injOn fun m hm => hf m (hsub m (mem_append_left _ hm)) id hid]

theorem getSetId_eq_getElem (hi : i < a.getRank) : a.getSetId i = a.dimensionSetIDs[i] :=
  coord_eq_getElem hi

theorem first_spec (hi : i < a.getRank) : a.dimensionSetIDs.idxOf (a.getSetId i) < a.getRank ∧
    a.Same (a.dimensionSetIDs.idxOf (a.getSetId i)) i := by
  have hmem : a.getSetId i ∈ a.dimensionSetIDs := getSetId_eq_getElem hi ▸ getElem_mem hi
  have hlt := idxOf_lt_length_of_mem hmem
  refine ⟨hlt, ?_⟩
  rw [Same, getSetId_eq_getElem hlt, getElem_idxOf hlt]

theorem canonicalize_eq (hrank : a.getRank = b.getRank)
    (h : ∀ i < a.getRank, ∀ j < a.getRank, a.Same i j ↔ b.Same i j) : a.canonicalize = b.canonicalize := by
  -- the id that `b` has where `a` has the id `n` first
  let f : Nat → Nat := fun n => b.getSetId (a.dimensionSetIDs.idxOf n)
  have hf : ∀ i < a.getRank, f (a.getSetId i) = b.getSetId i := fun i hi =>
    (h _ (first_spec hi).1 i hi).mp (first_spec hi).2
  have hmap : b.dimensionSetIDs = a.dimensionSetIDs.map f := by
    refine ext_getElem (by rw [length_map]; exact hrank.symm) fun i hi hi' => ?_
    rw [length_map] at hi'
    rw [getElem_map, ← getSetId_eq_getElem hi, ← getSetId_eq_getElem hi', hf i hi']
  have hinj : ∀ n ∈ a.dimensionSetIDs, ∀ m ∈ a.dimensionSetIDs, f n = f m → n = m := by
    intro n hn m hm heq
    obtain ⟨i, hi, rfl⟩ := getElem_of_mem hn
    obtain ⟨j, hj, rfl⟩ := getElem_of_mem hm
    rw [← getSetId_eq_getElem hi, ← getSetId_eq_getElem hj] at heq ⊢
    rw [hf i hi, hf j hj] at heq
    exact (h i hi j hj).mpr heq
  have hnames := @canonicalizeFrom_map f [] a.dimensionSetIDs hinj
  rw [canonicalize, canonicalize, hmap, ← hnames, map_nil]

theorem canonical_canonicalize (a : PartialSymmetryAnnotation) : a.canonicalize.Canonical :=
  canonicalize_eq getRank_canonicalize fun i hi j hj => by
    rw [getRank_canonicalize] at hi hj
    exact same_canonicalize_iff hi hj

theorem eq_of_canonical (ha : a.Canonical) (hb : b.Canonical) (hrank : a.getRank = b.getRank)
    (h : ∀ i < a.getRank, ∀ j < a.getRank, a.Same i j ↔ b.Same i j) : a = b :=
  ha.symm.trans ((canonicalize_eq hrank h).trans hb)

theorem canonical_meet : (lhs.meet rhs).Canonical := canonical_canonicalize _

theorem canonical_join : (lhs.join rhs).Canonical := canonical_canonicalize _

/-! ### Meets and joins -/

theorem same_iff_eqvGen {P : Nat → Nat → Prop}
    (h : ∀ E : Setoid Nat, a.Refines E ↔ ∀ i < a.getRank, ∀ j < a.getRank, P i j → E i j) (hi : i < a.getRank)
    (hj : j < a.getRank) : a.Same i j ↔ EqvGen (fun i j => i < a.getRank ∧ j < a.getRank ∧ P i j) i j := by
  constructor
  · intro hsame
    refine (h (EqvGen.setoid _)).mpr (fun p hp q hq hpq => ?_) i hi j hj hsame
    exact EqvGen.rel p q ⟨hp, hq, hpq⟩
  · intro hgen
    have hsame : a.Refines ⟨a.Same, fun _ => rfl, Eq.symm, Eq.trans⟩ := fun _ _ _ _ hpq => hpq
    clear hi hj
    induction hgen with
    | rel p q hpq => exact (h _).mp hsame p hpq.1 q hpq.2.1 hpq.2.2
    | refl p => rfl
    | symm p q _ ih => exact ih.symm
    | trans p q r _ _ ih ih' => exact ih.trans ih'

theorem eqvGen_iff_reflTransGen {r : Nat → Nat → Prop} (hsymm : ∀ i j, r i j → r j i) :
    EqvGen r i j ↔ ReflTransGen r i j := by
  constructor
  · intro h
    induction h with
    | rel p q hpq => exact .single hpq
    | refl p => exact .refl
    | symm p q _ ih => exact ReflTransGen.mono (fun x y hxy => hsymm y x hxy) _ _ ih.swap
    | trans p q r _ _ ih ih' => exact ih.trans ih'
  · intro h
    induction h with
    | refl => exact .refl _
    | tail _ hpq ih => exact .trans _ _ _ ih (.rel _ _ hpq)

theorem same_meet_iff (hi : i < lhs.getRank) (hj : j < lhs.getRank) :
    (lhs.meet rhs).Same i j ↔ lhs.Same i j ∧ rhs.Same i j := by
  constructor
  · intro hsame
    have hboth := (@refines_meet_iff ⟨fun i j => lhs.Same i j ∧ rhs.Same i j, fun _ => ⟨rfl, rfl⟩,
      fun h => ⟨h.1.symm, h.2.symm⟩, fun h h' => ⟨h.1.trans h'.1, h.2.trans h'.2⟩⟩ lhs rhs).mpr
      fun _ _ _ _ hpq => hpq
    rw [Refines, getRank_meet] at hboth
    exact hboth i hi j hj hsame
  · intro hboth
    have hsame := (@refines_meet_iff ⟨(lhs.meet rhs).Same, fun _ => rfl, Eq.symm, Eq.trans⟩ lhs rhs).mp
      fun _ _ _ _ hpq => hpq
    exact hsame i hi j hj hboth

def Either (lhs rhs : PartialSymmetryAnnotation) (i j : Nat) : Prop :=
  i < lhs.getRank ∧ j < lhs.getRank ∧ (lhs.Same i j ∨ rhs.Same i j)

theorem same_join_iff (hi : i < lhs.getRank) (hj : j < lhs.getRank) :
    (lhs.join rhs).Same i j ↔ TransGen (Either lhs rhs) i j := by
  have hgen := @same_iff_eqvGen (lhs.join rhs) i j (fun i j => lhs.Same i j ∨ rhs.Same i j)
    (fun E => by rw [refines_join_iff, getRank_join])
  rw [getRank_join] at hgen
  rw [hgen hi hj, eqvGen_iff_reflTransGen fun p q hpq => ⟨hpq.2.1, hpq.1, hpq.2.2.imp Eq.symm Eq.symm⟩,
    reflTransGen_iff_eq_or_transGen]
  constructor
  · intro h
    obtain rfl | h := h
    · exact .single ⟨hj, hj, .inl rfl⟩
    · exact h
  · exact .inr

/-! ### A cell of the analysis -/

def meetCell (value rhs : PartialSymmetryAnnotation) : PartialSymmetryAnnotation × Bool :=
  let newValue := value.meet rhs
  if value = newValue then (value, false) else (newValue, true)

/-- The value of a cell after the meets with the first `n` of the values. -/
def cell (value : PartialSymmetryAnnotation) (rhs : Nat → PartialSymmetryAnnotation) : Nat → PartialSymmetryAnnotation
  | 0 => value
  | n + 1 => (meetCell (cell value rhs n) (rhs n)).1

/-- Meet `n` changes the cell. -/
def changes (value : PartialSymmetryAnnotation) (rhs : Nat → PartialSymmetryAnnotation) (n : Nat) : Bool :=
  (meetCell (cell value rhs n) (rhs n)).2

def numSets (a : PartialSymmetryAnnotation) : Nat := ((Finset.range a.getRank).image a.getSetId).card

/-- What a change of a cell makes larger. -/
def potential (a : PartialSymmetryAnnotation) : Nat := a.numSets + if a.Canonical then 1 else 0

section

variable {value : PartialSymmetryAnnotation} {rhs : Nat → PartialSymmetryAnnotation}

theorem numSets_le (a : PartialSymmetryAnnotation) : a.numSets ≤ a.getRank :=
  Finset.card_image_le.trans_eq (Finset.card_range _)

theorem numSets_le_of_same (hrank : a.getRank = b.getRank)
    (h : ∀ i < a.getRank, ∀ j < a.getRank, b.Same i j → a.Same i j) : a.numSets ≤ b.numSets ∧
      (a.numSets = b.numSets → ∀ i < a.getRank, ∀ j < a.getRank, a.Same i j → b.Same i j) := by
  -- the id that `a` has where `b` has the id `n` first
  let g : Nat → Nat := fun n => a.getSetId (b.dimensionSetIDs.idxOf n)
  have hg : ∀ k < a.getRank, g (b.getSetId k) = a.getSetId k := fun k hk => by
    have hfirst := first_spec (hrank ▸ hk)
    exact h _ (hrank ▸ hfirst.1) k hk hfirst.2
  have himage : (Finset.range a.getRank).image a.getSetId = ((Finset.range b.getRank).image b.getSetId).image g := by
    rw [Finset.image_image, ← hrank]
    exact Finset.image_congr fun k hk => (hg k (Finset.mem_range.mp hk)).symm
  refine ⟨?_, fun heq i hi j hj hsame => ?_⟩
  · rw [numSets, himage]
    exact Finset.card_image_le
  · rw [numSets, himage] at heq
    have hmem : ∀ k < a.getRank, b.getSetId k ∈ ((Finset.range b.getRank).image b.getSetId) := fun k hk =>
      Finset.mem_image_of_mem _ (Finset.mem_range.mpr (hrank ▸ hk))
    refine Finset.card_image_iff.mp heq (hmem i hi) (hmem j hj) ?_
    rw [hg i hi, hg j hj]
    exact hsame

@[simp] theorem getRank_cell (n : Nat) : (cell value rhs n).getRank = value.getRank := by
  induction n with
  | zero => rfl
  | succ n ih =>
    rw [cell, meetCell]
    split
    · exact ih
    · exact getRank_meet.trans ih

theorem potential_lt (h : a ≠ a.meet b) : potential a < potential (a.meet b) := by
  obtain ⟨hle, hsplit⟩ := numSets_le_of_same (@getRank_meet a b).symm
    fun i hi j hj hsame => ((same_meet_iff hi hj).mp hsame).1
  rw [potential, potential, if_pos canonical_meet]
  split
  · rename_i hcanonical
    suffices a.numSets ≠ (a.meet b).numSets by omega
    intro heq
    refine h (eq_of_canonical hcanonical canonical_meet getRank_meet.symm fun i hi j hj => ?_)
    exact ⟨hsplit heq i hi j hj, fun hsame => ((same_meet_iff hi hj).mp hsame).1⟩
  · omega

theorem potential_cell (n : Nat) :
    potential value + ((Finset.range n).filter (changes value rhs ·)).card ≤ potential (cell value rhs n) := by
  induction n with
  | zero => rfl
  | succ n ih =>
    rw [Finset.range_add_one, Finset.filter_insert]
    by_cases heq : cell value rhs n = (cell value rhs n).meet (rhs n)
    · have hkept : meetCell (cell value rhs n) (rhs n) = (cell value rhs n, false) := if_pos heq
      rw [cell, changes, hkept, if_neg Bool.false_ne_true]
      exact ih
    · have hchanged : meetCell (cell value rhs n) (rhs n) = ((cell value rhs n).meet (rhs n), true) := if_neg heq
      rw [cell, changes, hchanged, if_pos rfl, Finset.card_insert_of_notMem (by simp)]
      have hlt := potential_lt heq
      dsimp only
      omega

theorem card_changes_le (n : Nat) : ((Finset.range n).filter (changes value rhs ·)).card ≤ value.getRank := by
  have hgrow := @potential_cell value rhs n
  have hbound : potential (cell value rhs n) ≤ value.getRank + 1 := by
    have hle := numSets_le (cell value rhs n)
    rw [getRank_cell] at hle
    rw [potential]
    split <;> omega
  have hpos : 1 ≤ potential value := by
    rw [potential]
    cases hids : value.dimensionSetIDs with
    | nil =>
      rw [if_pos (show value.Canonical by
        obtain ⟨ids⟩ := value
        obtain rfl : ids = [] := hids
        rfl)]
      omega
    | cons id ids =>
      have hrank : 0 < value.getRank := by
        rw [getRank, hids]
        exact Nat.succ_pos _
      have hmem : value.getSetId 0 ∈ (Finset.range value.getRank).image value.getSetId :=
        Finset.mem_image_of_mem _ (Finset.mem_range.mpr hrank)
      have hsets : 0 < value.numSets := Finset.card_pos.mpr ⟨_, hmem⟩
      omega
  omega

theorem exists_fixed : ∃ n, ∀ m, n ≤ m → cell value rhs m = cell value rhs n := by
  -- a change after every meet would make more changes than there are dimensions
  by_contra hnot
  push Not at hnot
  have hchange : ∀ n, ∃ m, n ≤ m ∧ changes value rhs m := by
    intro n
    by_contra hnone
    push Not at hnone
    obtain ⟨m, hm, hne⟩ := hnot n
    refine hne ?_
    clear hne
    induction m, hm using Nat.le_induction with
    | base => rfl
    | succ m hm ih =>
      have hkept : changes value rhs m = false := Bool.eq_false_iff.mpr (hnone m hm)
      rw [changes, meetCell] at hkept
      rw [cell, meetCell]
      split
      · exact ih
      · rename_i heq
        rw [if_neg heq] at hkept
        exact absurd hkept Bool.noConfusion
  have hmany : ∀ k, ∃ n, k ≤ ((Finset.range n).filter (changes value rhs ·)).card := by
    intro k
    induction k with
    | zero => exact ⟨0, Nat.zero_le _⟩
    | succ k ih =>
      obtain ⟨n, hn⟩ := ih
      obtain ⟨m, hm, hchanged⟩ := hchange n
      refine ⟨m + 1, ?_⟩
      rw [Finset.range_add_one, Finset.filter_insert, if_pos hchanged, Finset.card_insert_of_notMem (by simp)]
      have hsub := Finset.card_le_card (Finset.filter_subset_filter (changes value rhs ·) (Finset.range_subset_range.mpr hm))
      omega
  obtain ⟨n, hn⟩ := hmany (value.getRank + 1)
  have hle := @card_changes_le value rhs n
  omega

end

/-! ### Constants -/

/-- A float: a NaN with its bits, an infinity, or a multiple of the smallest positive float. -/
inductive APFloat
  | nan (bits : Nat)
  | infinity (negative : Bool)
  | finite (negative : Bool) (magnitude : Nat)
  deriving DecidableEq

/-- `compare` gives `cmpEqual`. The zeros are equal, and a NaN is unordered. -/
def APFloat.compareEqual : APFloat → APFloat → Bool
  | infinity s, infinity s' => s = s'
  | finite s n, finite s' m => n = m ∧ (s = s' ∨ n = 0)
  | _, _ => false

/-- A constant, by the type of its elements. Those of other types are given by their bits. -/
inductive DenseElementsAttr
  | float (t : Tensor APFloat)
  | integer (t : Tensor Int)
  | other (t : Tensor Nat)

namespace DenseElementsAttr

def shape : DenseElementsAttr → List Nat
  | float t => t.shape
  | integer t => t.shape
  | other t => t.shape

end DenseElementsAttr

section

variable {α : Type} [DecidableEq α]

/-- The element that is number `i` in row-major order. -/
def element (t : Tensor α) (i : Nat) : α := t.get (unravel t.shape i)

def isSplat (t : Tensor α) : Bool :=
  match (List.range t.shape.prod).map (element t) with
  | [] => false
  | a :: l => l.all (· = a)

def strides : List Nat → List Nat
  | [] => []
  | _ :: shape => shape.prod :: strides shape

def coords : List Nat → Nat → List Nat
  | [], _ => []
  | stride :: strides, temp => temp / stride :: coords strides (temp % stride)

def swap (coords : List Nat) (dimA dimB : Nat) : List Nat :=
  (coords.set dimA (coord coords dimB)).set dimB (coord coords dimA)

def checkPairwiseSymmetry (checkNotEqual : α → α → Bool) (t : Tensor α) (dimA dimB : Nat) : Bool :=
  if coord t.shape dimA ≠ coord t.shape dimB then false
  else if isSplat t then true
  else (List.range t.shape.prod).all fun i =>
    let swappedIdx := (List.zipWith (· * ·) (swap (coords (strides t.shape) i) dimA dimB) (strides t.shape)).sum
    !checkNotEqual (element t i) (element t swappedIdx)

end

def isSymmetric (dimA dimB : Nat) : DenseElementsAttr → Bool
  | .float t => checkPairwiseSymmetry (fun a b => !a.compareEqual b) t dimA dimB
  | .integer t => checkPairwiseSymmetry (fun a b => a ≠ b) t dimA dimB
  | .other _ => false

def checkConstant (attr : DenseElementsAttr) : PartialSymmetryAnnotation :=
  (createNotSymmetric attr.shape.length).uniteAll <|
    (pairs attr.shape.length).filter fun p => isSymmetric p.1 p.2 attr

section

variable {α : Type} [DecidableEq α] {t : Tensor α} {checkNotEqual : α → α → Bool}

/-- Exchanging the coordinates of `i` and `j` leaves elements that are not told apart. -/
structure SwapEqual (checkNotEqual : α → α → Bool) (t : Tensor α) (i j : Nat) : Prop where
  size_eq : coord t.shape i = coord t.shape j
  read_swap : isSplat t ∨ ∀ c, Within t.shape c → checkNotEqual (t.read c) (t.read (c ∘ Equiv.swap i j)) = false

theorem coords_strides (shape : List Nat) (i : Nat) : coords (strides shape) i = unravel shape i := by
  induction shape generalizing i with
  | nil => rfl
  | cons n shape ih => rw [strides, coords, unravel, ih]

theorem sum_strides {shape idx : List Nat} (hlen : idx.length = shape.length) :
    (zipWith (· * ·) idx (strides shape)).sum = ravel shape idx := by
  induction shape generalizing idx with
  | nil =>
    obtain rfl := length_eq_zero_iff.mp hlen
    rfl
  | cons n shape ih =>
    obtain ⟨k, idx, rfl⟩ := exists_cons_of_length_eq_add_one hlen
    rw [strides, zipWith_cons_cons, sum_cons, ih (add_right_cancel hlen), ravel]

theorem coord_swap {idx : List Nat} (hi : i < idx.length) (hj : j < idx.length) (d : Nat) :
    coord (swap idx i j) d = coord idx (Equiv.swap i j d) := by
  rw [swap]
  by_cases hdj : d = j
  · subst hdj
    rw [coord_set_self (by rwa [length_set]), swap_apply_right]
  · rw [coord_set_of_ne hdj]
    by_cases hdi : d = i
    · subst hdi
      rw [coord_set_self hi, swap_apply_left]
    · rw [coord_set_of_ne hdi, swap_apply_of_ne_of_ne hdi hdj]

theorem checkPairwiseSymmetry_iff (hi : i < t.shape.length) (hj : j < t.shape.length) :
    checkPairwiseSymmetry checkNotEqual t i j = true ↔ SwapEqual checkNotEqual t i j := by
  rw [checkPairwiseSymmetry]
  split
  · rename_i hsize
    exact iff_of_false Bool.false_ne_true fun h => hsize h.size_eq
  · rename_i hsize
    have hsize := not_not.mp hsize
    split
    · rename_i hsplat
      exact iff_of_true rfl ⟨hsize, .inl hsplat⟩
    · rename_i hsplat
      -- element number `i` and the one with the coordinates exchanged
      have hpair : ∀ idx ∈ indices t.shape, element t (ravel t.shape idx) = t.read (coord idx) ∧
          element t (zipWith (· * ·) (swap (coords (strides t.shape) (ravel t.shape idx)) i j)
            (strides t.shape)).sum = t.read (coord idx ∘ Equiv.swap i j) := by
        intro idx hidx
        have hlen := length_of_mem_indices hidx
        have hswap : ∀ d, coord (swap idx i j) d = coord idx (Equiv.swap i j d) :=
          coord_swap (hlen ▸ hi) (hlen ▸ hj)
        have hlen' : (swap idx i j).length = t.shape.length := by
          rw [swap, length_set, length_set, hlen]
        have hmem : swap idx i j ∈ indices t.shape := by
          refine mem_indices_iff.mpr ⟨hlen', fun d hd => ?_⟩
          rw [hswap]
          exact (within_coord hidx).swap hsize d hd
        rw [coords_strides, unravel_ravel hidx, sum_strides hlen', element, element, unravel_ravel hidx,
          unravel_ravel hmem, read_coord t hidx, ← read_coord t hmem]
        exact ⟨rfl, read_congr t fun d _ => hswap d⟩
      rw [all_eq_true]
      constructor
      · intro hall
        refine ⟨hsize, .inr fun c hc => ?_⟩
        have hidx := hc.mem_indices
        have hat := hall _ (mem_range.mpr (ravel_lt hidx))
        obtain ⟨hleft, hright⟩ := hpair _ hidx
        dsimp only at hat
        rw [hleft, hright, Bool.not_eq_true'] at hat
        have hcoord : ∀ d < t.shape.length, coord ((range t.shape.length).map c) d = c d := fun d hd => coord_map_range _ hd
        have hswapped : t.read (coord ((range t.shape.length).map c) ∘ Equiv.swap i j) =
            t.read (c ∘ Equiv.swap i j) := read_congr t fun d hd => hcoord _ (swap_lt hi hj hd)
        rwa [read_congr t hcoord, hswapped] at hat
      · intro h k hk
        have hk := mem_range.mp hk
        obtain ⟨hleft, hright⟩ := hpair _ (unravel_mem_indices hk)
        rw [ravel_unravel hk] at hleft hright
        dsimp only
        rw [hleft, hright, Bool.not_eq_true']
        exact (h.read_swap.resolve_left hsplat) _ (within_coord (unravel_mem_indices hk))

end

/-- Exchanging the coordinates leaves the constant as `checkNotEqual` sees it. -/
def Leaves (i j : Nat) : DenseElementsAttr → Prop
  | .float t => SwapEqual (fun a b => !a.compareEqual b) t i j
  | .integer t => Swappable t i j
  | .other _ => False

/-- Exchanging the coordinates leaves every element. -/
def Unchanged (i j : Nat) : DenseElementsAttr → Prop
  | .float t => Swappable t i j
  | .integer t => Swappable t i j
  | .other t => Swappable t i j

/-- Two dimensions of the constant are related if a chain of such exchanges leads from one to the other. -/
def Exact (R : Nat → Nat → DenseElementsAttr → Prop) (attr : DenseElementsAttr) : Prop :=
  ∀ i < attr.shape.length, ∀ j < attr.shape.length, (checkConstant attr).Same i j ↔
    ReflTransGen (fun i j => i < attr.shape.length ∧ j < attr.shape.length ∧ R i j attr) i j

section

variable {α : Type} [DecidableEq α] {t : Tensor α} {checkNotEqual : α → α → Bool} {attr : DenseElementsAttr}

theorem swap_comm (idx : List Nat) (i j : Nat) : swap idx i j = swap idx j i := by
  by_cases hij : i = j
  · rw [hij]
  · rw [swap, swap, set_comm _ _ hij]

theorem checkPairwiseSymmetry_comm (i j : Nat) :
    checkPairwiseSymmetry checkNotEqual t i j = checkPairwiseSymmetry checkNotEqual t j i := by
  rw [checkPairwiseSymmetry, checkPairwiseSymmetry]
  simp only [swap_comm _ i j, ne_comm (a := coord t.shape i)]

theorem isSymmetric_comm (i j : Nat) : isSymmetric i j attr = isSymmetric j i attr := by
  cases attr with
  | float t | integer t =>
    rw [isSymmetric, isSymmetric]
    exact checkPairwiseSymmetry_comm i j
  | other t => rfl

theorem read_eq_of_isSplat (h : isSplat t = true) {c c' : Nat → Nat} (hc : Within t.shape c)
    (hc' : Within t.shape c') : t.read c = t.read c' := by
  have hmem : ∀ c, Within t.shape c → t.read c ∈ (range t.shape.prod).map (element t) := fun c hc =>
    mem_map.mpr ⟨ravel t.shape _, mem_range.mpr (ravel_lt hc.mem_indices), by
      rw [element, unravel_ravel hc.mem_indices, Tensor.read]⟩
  have hleft := hmem c hc
  have hright := hmem c' hc'
  rw [isSplat] at h
  cases hvals : (range t.shape.prod).map (element t) with
  | nil =>
    rw [hvals] at h
    exact absurd h Bool.false_ne_true
  | cons a l =>
    rw [hvals] at h hleft hright
    have hall : ∀ b ∈ a :: l, b = a := by
      intro b hb
      obtain rfl | hb := mem_cons.mp hb
      · rfl
      · exact of_decide_eq_true (all_eq_true.mp h b hb)
    rw [hall _ hleft, hall _ hright]

theorem swapEqual_ne_iff : SwapEqual (fun a b : α => a ≠ b) t i j ↔ Swappable t i j := by
  constructor
  · intro h
    refine ⟨h.size_eq, fun c hc => ?_⟩
    obtain hsplat | hread := h.read_swap
    · exact read_eq_of_isSplat hsplat (hc.swap h.size_eq) hc
    · have hat := hread c hc
      rw [decide_eq_false_iff_not, not_not] at hat
      exact hat.symm
  · intro h
    refine ⟨h.size_eq, .inr fun c hc => ?_⟩
    rw [decide_eq_false_iff_not, not_not]
    exact (h.read_swap c hc).symm

theorem isSymmetric_iff (hi : i < attr.shape.length) (hj : j < attr.shape.length) :
    isSymmetric i j attr = true ↔ Leaves i j attr := by
  cases attr with
  | float t =>
    rw [isSymmetric, Leaves]
    exact checkPairwiseSymmetry_iff hi hj
  | integer t =>
    rw [isSymmetric, Leaves]
    exact (checkPairwiseSymmetry_iff hi hj).trans swapEqual_ne_iff
  | other t => exact iff_of_false Bool.false_ne_true not_false

theorem getRank_checkConstant (attr : DenseElementsAttr) : (checkConstant attr).getRank = attr.shape.length := by
  rw [checkConstant, getRank_uniteAll, getRank_createNotSymmetric]

theorem refines_checkConstant_iff : (checkConstant attr).Refines E ↔
    ∀ i < attr.shape.length, ∀ j < attr.shape.length, Leaves i j attr → E i j := by
  rw [checkConstant, refines_uniteAll_iff pairs_lt, and_iff_right (refines_createNotSymmetric _ E)]
  have hpairs := @forall_mem_pairs_iff E attr.shape.length (fun i j => isSymmetric i j attr = true) _
    fun p q hpq => (isSymmetric_comm q p).trans hpq
  simp only [Bool.decide_eq_true] at hpairs
  rw [hpairs]
  exact forall₂_congr fun p hp => forall₂_congr fun q hq => imp_congr_left (isSymmetric_iff hp hq)

theorem exact_leaves (attr : DenseElementsAttr) : Exact Leaves attr := by
  intro i hi j hj
  have hgen := @same_iff_eqvGen (checkConstant attr) i j (fun i j => Leaves i j attr)
    (fun E => by rw [refines_checkConstant_iff, getRank_checkConstant])
  rw [getRank_checkConstant] at hgen
  rw [hgen hi hj]
  refine eqvGen_iff_reflTransGen fun p q hpq => ⟨hpq.2.1, hpq.1, ?_⟩
  rw [← isSymmetric_iff hpq.2.1 hpq.1, isSymmetric_comm, isSymmetric_iff hpq.1 hpq.2.1]
  exact hpq.2.2

end

/-- The lattice and the annotations of constants are exact. -/
structure LatticeExact (lhs rhs value : PartialSymmetryAnnotation) (values : Nat → PartialSymmetryAnnotation)
    (attr : DenseElementsAttr) : Prop where
  meet : ∀ i < lhs.getRank, ∀ j < lhs.getRank, (lhs.meet rhs).Same i j ↔ lhs.Same i j ∧ rhs.Same i j
  join : ∀ i < lhs.getRank, ∀ j < lhs.getRank, (lhs.join rhs).Same i j ↔ TransGen (Either lhs rhs) i j
  canonical : (lhs.meet rhs).Canonical ∧ (lhs.join rhs).Canonical
  eq : lhs.Canonical → rhs.Canonical → ((∀ i < lhs.getRank, ∀ j < lhs.getRank, lhs.Same i j ↔ rhs.Same i j) ↔ lhs = rhs)
  changes : ∀ n, ((Finset.range n).filter (changes value values ·)).card ≤ value.getRank
  fixed : ∃ n, ∀ m, n ≤ m → cell value values m = cell value values n
  constant : Exact Leaves attr

theorem latticeExact {lhs rhs value : PartialSymmetryAnnotation} {values : Nat → PartialSymmetryAnnotation}
    {attr : DenseElementsAttr} (hrank : lhs.getRank = rhs.getRank) : LatticeExact lhs rhs value values attr where
  meet _ hi _ hj := same_meet_iff hi hj
  join _ hi _ hj := same_join_iff hi hj
  canonical := ⟨canonical_meet, canonical_join⟩
  eq hlhs hrhs := ⟨eq_of_canonical hlhs hrhs hrank, fun heq i _ j _ => by rw [heq]⟩
  changes := card_changes_le
  fixed := exists_fixed
  constant := exact_leaves attr

def nanMatrix : Tensor APFloat :=
  ⟨[2, 2], fun idx => if idx = [0, 0] then .nan 0 else .finite false 1⟩

theorem latticeExact_matrix : LatticeExact (createNotSymmetric 2) ⟨[0, 0]⟩ ⟨[0, 0]⟩ (fun _ => createNotSymmetric 2)
    (.float nanMatrix) := latticeExact rfl

/-- The transpose of a matrix is the matrix, but its dimensions are not related: NaN differs from itself. -/
theorem not_exact_nanMatrix : Swappable nanMatrix 0 1 ∧ ¬ Exact Unchanged (.float nanMatrix) := by
  have hswap : Swappable nanMatrix 0 1 := by
    refine ⟨rfl, fun c hc => ?_⟩
    change (if [c 1, c 0] = [0, 0] then _ else _) = if [c 0, c 1] = [0, 0] then _ else _
    have hiff : [c 1, c 0] = [0, 0] ↔ [c 0, c 1] = [0, 0] := by
      simp only [List.cons.injEq, and_true]
      exact and_comm
    rw [if_congr hiff rfl rfl]
  refine ⟨hswap, fun hexact => ?_⟩
  have hsame := (hexact 0 (by decide) 1 (by decide)).mpr (.single ⟨by decide, by decide, hswap⟩)
  revert hsame
  decide

end EnzymeJax.PartialSymmetryAnnotation
