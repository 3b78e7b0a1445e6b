import EnzymeJax.Library.Symmetry

/-!
# Partial symmetries

A partition of the dimensions of a tensor into sets that may be swapped, kept as the id of each dimension's set.
-/

namespace EnzymeJax

open Tensor List

structure PartialSymmetryAnnotation where
  dimensionSetIDs : List Nat
  deriving DecidableEq

namespace PartialSymmetryAnnotation

def getSetId (a : PartialSymmetryAnnotation) (i : Nat) : Nat := coord a.dimensionSetIDs i

def getRank (a : PartialSymmetryAnnotation) : Nat := a.dimensionSetIDs.length

def createNotSymmetric (rank : Nat) : PartialSymmetryAnnotation := ⟨List.range rank⟩

/-- New ids in the order in which the old ones are met; those met so far are `seen`. -/
def canonicalizeFrom : List Nat → List Nat → List Nat
  | _, [] => []
  | seen, id :: ids =>
    let seen := if id ∈ seen then seen else seen ++ [id]
    seen.idxOf id :: canonicalizeFrom seen ids

def canonicalize (a : PartialSymmetryAnnotation) : PartialSymmetryAnnotation :=
  ⟨canonicalizeFrom [] a.dimensionSetIDs⟩

def uniteDimensionSets (a : PartialSymmetryAnnotation) (i j : Nat) : PartialSymmetryAnnotation :=
  if a.getSetId i = a.getSetId j then a
  else canonicalize
    ⟨a.dimensionSetIDs.map fun id => if id = a.getSetId i then a.getSetId j else id⟩

/-- The pairs of a loop over `i < n` and `j < i`. -/
def pairs (n : Nat) : List (Nat × Nat) :=
  (List.range n).flatMap fun i => (List.range i).map fun j => (i, j)

/-- The sets are united for one pair after another. -/
def uniteAll (a : PartialSymmetryAnnotation) (l : List (Nat × Nat)) : PartialSymmetryAnnotation :=
  l.foldl (fun result p => result.uniteDimensionSets p.1 p.2) a

def meet (lhs rhs : PartialSymmetryAnnotation) : PartialSymmetryAnnotation :=
  canonicalize <| (createNotSymmetric lhs.getRank).uniteAll <| (pairs lhs.getRank).filter fun p =>
    lhs.getSetId p.1 = lhs.getSetId p.2 ∧ rhs.getSetId p.1 = rhs.getSetId p.2

def join (lhs rhs : PartialSymmetryAnnotation) : PartialSymmetryAnnotation :=
  canonicalize <| (createNotSymmetric lhs.getRank).uniteAll <| (pairs lhs.getRank).filter fun p =>
    lhs.getSetId p.1 = lhs.getSetId p.2 ∨ rhs.getSetId p.1 = rhs.getSetId p.2

/-! ### Which dimensions are in one set -/

def Same (a : PartialSymmetryAnnotation) (i j : Nat) : Prop := a.getSetId i = a.getSetId j

instance (a : PartialSymmetryAnnotation) : DecidableRel a.Same :=
  fun i j => inferInstanceAs (Decidable (a.getSetId i = a.getSetId j))

/-- The dimensions of one set are related. -/
def Refines (a : PartialSymmetryAnnotation) (E : Setoid Nat) : Prop :=
  ∀ i < a.getRank, ∀ j < a.getRank, a.Same i j → E i j

/-- An annotation of a tensor is valid if any two dimensions of one set have one size and may be
swapped. -/
structure Valid {α : Type*} (a : PartialSymmetryAnnotation) (t : Tensor α) : Prop where
  rank_eq : a.getRank = t.shape.length
  swappable : ∀ i < a.getRank, ∀ j < a.getRank, a.Same i j → Swappable t i j

section

variable {a : PartialSymmetryAnnotation} {E : Setoid Nat} {i j : Nat}

theorem valid_iff_refines {α : Type*} {t : Tensor α} :
    a.Valid t ↔ a.getRank = t.shape.length ∧ a.Refines t.symmetries :=
  ⟨fun h => ⟨h.rank_eq, h.swappable⟩, fun h => ⟨h.1, h.2⟩⟩

theorem canonicalizeFrom_eq_map (seen ids : List Nat) :
    ∃ all, seen <+: all ∧ (∀ id ∈ ids, id ∈ all) ∧ canonicalizeFrom seen ids = ids.map fun id => all.idxOf id := by
  induction ids generalizing seen with
  | nil => exact ⟨seen, prefix_rfl, nofun, rfl⟩
  | cons id ids ih =>
    obtain ⟨all, hprefix, hmem, heq⟩ := ih (if id ∈ seen then seen else seen ++ [id])
    have hid : id ∈ if id ∈ seen then seen else seen ++ [id] := by
      split
      · assumption
      · exact mem_append_right _ mem_cons_self
    have hidx : (if id ∈ seen then seen else seen ++ [id]).idxOf id = all.idxOf id := by
      obtain ⟨rest, rfl⟩ := hprefix
      rw [idxOf_append_of_mem hid]
    refine ⟨all, IsPrefix.trans ?_ hprefix, fun id' hid' => ?_, ?_⟩
    · split
      · exact prefix_rfl
      · exact prefix_append _ _
    · obtain rfl | hid' := mem_cons.mp hid'
      · exact hprefix.subset hid
      · exact hmem id' hid'
    · rw [canonicalizeFrom, map_cons, heq, hidx]

@[simp] theorem getRank_canonicalize : a.canonicalize.getRank = a.getRank := by
  obtain ⟨all, -, -, heq⟩ := canonicalizeFrom_eq_map [] a.dimensionSetIDs
  rw [getRank, canonicalize, heq, length_map]
  rfl

theorem same_canonicalize_iff (hi : i < a.getRank) (hj : j < a.getRank) :
    a.canonicalize.Same i j ↔ a.Same i j := by
  obtain ⟨all, -, hmem, heq⟩ := canonicalizeFrom_eq_map [] a.dimensionSetIDs
  have hid : ∀ k, k < a.getRank → a.getSetId k ∈ a.dimensionSetIDs ∧
      a.canonicalize.getSetId k = all.idxOf (a.getSetId k) := by
    intro k hk
    have hget : a.getSetId k = a.dimensionSetIDs[k] := by
      rw [getSetId, coord, getD_eq_getElem _ _ hk]
    refine ⟨hget ▸ getElem_mem hk, ?_⟩
    rw [hget, getSetId, canonicalize, heq, coord_map _ _ hk]
  rw [Same, Same, (hid i hi).2, (hid j hj).2]
  exact idxOf_inj (hmem _ (hid i hi).1)

@[simp] theorem getRank_createNotSymmetric (n : Nat) : (createNotSymmetric n).getRank = n :=
  length_range

theorem refines_createNotSymmetric (n : Nat) (E : Setoid Nat) : (createNotSymmetric n).Refines E := by
  intro i hi j hj h
  rw [getRank_createNotSymmetric] at hi hj
  have hget : ∀ k < n, (createNotSymmetric n).getSetId k = k := by
    intro k hk
    simp [getSetId, createNotSymmetric, coord, hk]
  rw [Same, hget i hi, hget j hj] at h
  rw [h]

theorem valid_createNotSymmetric {α : Type*} (t : Tensor α) : (createNotSymmetric t.shape.length).Valid t :=
  valid_iff_refines.mpr ⟨getRank_createNotSymmetric _, refines_createNotSymmetric _ _⟩

theorem refines_canonicalize_iff : a.canonicalize.Refines E ↔ a.Refines E := by
  rw [Refines, Refines, getRank_canonicalize]
  exact forall₂_congr fun i hi => forall₂_congr fun j hj =>
    imp_congr_left (same_canonicalize_iff hi hj)

@[simp] theorem getRank_uniteDimensionSets (a : PartialSymmetryAnnotation) (i j : Nat) :
    (a.uniteDimensionSets i j).getRank = a.getRank := by
  rw [uniteDimensionSets]
  split
  · rfl
  · rw [getRank_canonicalize, getRank, length_map]
    rfl

theorem same_uniteDimensionSets_iff {p q : Nat} (hp : p < a.getRank) (hq : q < a.getRank) :
    (a.uniteDimensionSets i j).Same p q ↔ a.Same p q ∨ (a.Same p i ∧ a.Same j q) ∨ (a.Same p j ∧ a.Same i q) := by
  rw [uniteDimensionSets]
  split
  · rename_i hij
    unfold Same
    constructor
    · exact .inl
    · intro h
      obtain h | ⟨hpi, hjq⟩ | ⟨hpj, hiq⟩ := h
      · exact h
      · exact hpi.trans (hij.trans hjq)
      · exact hpj.trans (hij.symm.trans hiq)
  · rename_i hij
    have hrank : (⟨a.dimensionSetIDs.map fun id => if id = a.getSetId i then a.getSetId j
        else id⟩ : PartialSymmetryAnnotation).getRank = a.getRank := length_map _
    have hget : ∀ k, k < a.getRank → (⟨a.dimensionSetIDs.map fun id => if id = a.getSetId i then a.getSetId j
        else id⟩ : PartialSymmetryAnnotation).getSetId k =
          if a.getSetId k = a.getSetId i then a.getSetId j else a.getSetId k := by
      intro k hk
      have hk' : a.getSetId k = a.dimensionSetIDs[k] := by
        rw [getSetId, coord, getD_eq_getElem _ _ hk]
      rw [hk', getSetId, coord_map _ _ hk]
    rw [same_canonicalize_iff (hrank.symm ▸ hp) (hrank.symm ▸ hq), Same, hget p hp, hget q hq]
    unfold Same
    split
    · rename_i hpi
      split
      · rename_i hqi
        exact iff_of_true rfl (.inl (hpi.trans hqi.symm))
      · rename_i hqi
        constructor
        · exact fun h => .inr (.inl ⟨hpi, h⟩)
        · intro h
          obtain h | ⟨-, h⟩ | ⟨-, h⟩ := h
          · exact absurd (h.symm.trans hpi) hqi
          · exact h
          · exact absurd h.symm hqi
    · rename_i hpi
      split
      · rename_i hqi
        constructor
        · exact fun h => .inr (.inr ⟨h, hqi.symm⟩)
        · intro h
          obtain h | ⟨h, -⟩ | ⟨h, -⟩ := h
          · exact absurd (h.trans hqi) hpi
          · exact absurd h hpi
          · exact h
      · rename_i hqi
        constructor
        · exact .inl
        · intro h
          obtain h | ⟨h, -⟩ | ⟨-, h⟩ := h
          · exact h
          · exact absurd h hpi
          · exact absurd h.symm hqi

theorem refines_uniteDimensionSets_iff (hi : i < a.getRank) (hj : j < a.getRank) :
    (a.uniteDimensionSets i j).Refines E ↔ a.Refines E ∧ E i j := by
  rw [Refines, getRank_uniteDimensionSets]
  constructor
  · intro h
    refine ⟨fun p hp q hq hsame => ?_, ?_⟩
    · exact h p hp q hq ((same_uniteDimensionSets_iff hp hq).mpr (.inl hsame))
    · exact h i hi j hj ((same_uniteDimensionSets_iff hi hj).mpr (.inr (.inl ⟨rfl, rfl⟩)))
  · intro ⟨h, hij⟩ p hp q hq hsame
    obtain hsame | ⟨hpi, hjq⟩ | ⟨hpj, hiq⟩ := (same_uniteDimensionSets_iff hp hq).mp hsame
    · exact h p hp q hq hsame
    · exact E.trans (h p hp i hi hpi) (E.trans hij (h j hj q hq hjq))
    · exact E.trans (h p hp j hj hpj) (E.trans (E.symm hij) (h i hi q hq hiq))

@[simp] theorem getRank_uniteAll (a : PartialSymmetryAnnotation) (l : List (Nat × Nat)) :
    (a.uniteAll l).getRank = a.getRank := by
  induction l generalizing a with
  | nil => rfl
  | cons p l ih => exact (ih _).trans (getRank_uniteDimensionSets a p.1 p.2)

theorem refines_uniteAll_iff {l : List (Nat × Nat)} (hl : ∀ p ∈ l, p.1 < a.getRank ∧ p.2 < a.getRank) :
    (a.uniteAll l).Refines E ↔ a.Refines E ∧ ∀ p ∈ l, E p.1 p.2 := by
  induction l generalizing a with
  | nil => exact ⟨fun h => ⟨h, nofun⟩, fun h => h.1⟩
  | cons p l ih =>
    obtain ⟨hp, hl⟩ := forall_mem_cons.mp hl
    have hl' : ∀ q ∈ l, q.1 < (a.uniteDimensionSets p.1 p.2).getRank ∧
        q.2 < (a.uniteDimensionSets p.1 p.2).getRank := by
      simpa using hl
    have hstep : a.uniteAll (p :: l) = (a.uniteDimensionSets p.1 p.2).uniteAll l := rfl
    rw [hstep, ih hl', refines_uniteDimensionSets_iff hp.1 hp.2, forall_mem_cons, and_assoc]

theorem mem_pairs {n : Nat} {p : Nat × Nat} : p ∈ pairs n ↔ p.1 < n ∧ p.2 < p.1 := by
  rw [pairs, mem_flatMap]
  constructor
  · intro ⟨i, hi, hp⟩
    obtain ⟨j, hj, rfl⟩ := mem_map.mp hp
    exact ⟨mem_range.mp hi, mem_range.mp hj⟩
  · intro ⟨hp, hlt⟩
    exact ⟨p.1, mem_range.mpr hp, mem_map.mpr ⟨p.2, mem_range.mpr hlt, rfl⟩⟩

/-- A relation holds of the pairs of a loop if and only if it holds of all that the loop's test holds
of, in either order. -/
theorem forall_mem_pairs_iff {n : Nat} {P : Nat → Nat → Prop} [DecidableRel P] (hsymm : ∀ i j, P i j → P j i) :
    (∀ p ∈ (pairs n).filter (fun p => P p.1 p.2), E p.1 p.2) ↔ ∀ i < n, ∀ j < n, P i j → E i j := by
  constructor
  · intro h i hi j hj hP
    obtain hlt | rfl | hlt := lt_trichotomy j i
    · exact h (i, j) (mem_filter.mpr ⟨mem_pairs.mpr ⟨hi, hlt⟩, decide_eq_true hP⟩)
    · exact E.refl j
    · exact E.symm
        (h (j, i) (mem_filter.mpr ⟨mem_pairs.mpr ⟨hj, hlt⟩, decide_eq_true (hsymm i j hP)⟩))
  · intro h p hp
    obtain ⟨hp, hP⟩ := mem_filter.mp hp
    obtain ⟨hi, hlt⟩ := mem_pairs.mp hp
    exact h p.1 hi p.2 (hlt.trans hi) (of_decide_eq_true hP)

section

variable {lhs rhs : PartialSymmetryAnnotation}

theorem pairs_lt {n : Nat} {f : Nat × Nat → Bool} :
    ∀ p ∈ (pairs n).filter f, p.1 < (createNotSymmetric n).getRank ∧ p.2 < (createNotSymmetric n).getRank := by
  intro p hp
  obtain ⟨hi, hlt⟩ := mem_pairs.mp (mem_filter.mp hp).1
  rw [getRank_createNotSymmetric]
  exact ⟨hi, hlt.trans hi⟩

@[simp] theorem getRank_meet : (lhs.meet rhs).getRank = lhs.getRank := by
  rw [meet, getRank_canonicalize, getRank_uniteAll, getRank_createNotSymmetric]

@[simp] theorem getRank_join : (lhs.join rhs).getRank = lhs.getRank := by
  rw [join, getRank_canonicalize, getRank_uniteAll, getRank_createNotSymmetric]

theorem refines_meet_iff : (lhs.meet rhs).Refines E ↔
    ∀ i < lhs.getRank, ∀ j < lhs.getRank, lhs.Same i j ∧ rhs.Same i j → E i j := by
  rw [meet, refines_canonicalize_iff, refines_uniteAll_iff pairs_lt, and_iff_right (refines_createNotSymmetric _ E)]
  exact forall_mem_pairs_iff
    (P := fun i j => lhs.getSetId i = lhs.getSetId j ∧ rhs.getSetId i = rhs.getSetId j)
    fun i j h => ⟨h.1.symm, h.2.symm⟩

theorem refines_join_iff : (lhs.join rhs).Refines E ↔
    ∀ i < lhs.getRank, ∀ j < lhs.getRank, lhs.Same i j ∨ rhs.Same i j → E i j := by
  rw [join, refines_canonicalize_iff, refines_uniteAll_iff pairs_lt, and_iff_right (refines_createNotSymmetric _ E)]
  exact forall_mem_pairs_iff
    (P := fun i j => lhs.getSetId i = lhs.getSetId j ∨ rhs.getSetId i = rhs.getSetId j)
    fun i j h => h.imp Eq.symm Eq.symm

end

end

end PartialSymmetryAnnotation

end EnzymeJax
