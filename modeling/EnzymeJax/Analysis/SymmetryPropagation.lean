import EnzymeJax.Analysis.PartialSymmetry

/-!
# Symmetries of transposes, broadcasts and elementwise operations

The annotation of the result of an operation from those of its operands.
-/

namespace EnzymeJax.PartialSymmetryAnnotation

open Tensor Option Function Equiv
open List hiding zipWith

def propagateTranspose (a : PartialSymmetryAnnotation) (permutation : List Nat) :
    PartialSymmetryAnnotation :=
  canonicalize ⟨(List.range a.getRank).map fun i => a.getSetId (coord permutation i)⟩

/-- The dimension of the operand that a dimension of the result is one of, the last if there are some. -/
def outputToInput (broadcastDimensions : List Nat) : Nat → Option Nat :=
  (List.range broadcastDimensions.length).foldl
    (fun map i => Function.update map (coord broadcastDimensions i) (some i)) fun _ => none

/-- Dimensions that are not of the operand form a set of their own. -/
def propagateBroadcastInDim (a : PartialSymmetryAnnotation) (outputRank : Nat)
    (broadcastDimensions : List Nat) : PartialSymmetryAnnotation :=
  let nextSetId := ((List.range a.getRank).map fun i => a.getSetId i + 1).foldl max 0
  canonicalize ⟨(List.range outputRank).map fun outputDim =>
    match outputToInput broadcastDimensions outputDim with
    | some inputDim => a.getSetId inputDim
    | none => nextSetId⟩

def changedDims (resultRank : Nat) (rhsDimToLhs : List Nat) : List Nat :=
  (List.range resultRank).filter fun i => coord rhsDimToLhs i ≠ i

/-- Two operands that are the same but for two dimensions may have these swapped. -/
def propagateElementwiseBinary (lhs rhs : PartialSymmetryAnnotation) (resultRank : Nat)
    (rhsDimToLhs : Option (List Nat)) : PartialSymmetryAnnotation :=
  match rhsDimToLhs with
  | none => meet lhs rhs
  | some rhsDimToLhs =>
    match changedDims resultRank rhsDimToLhs with
    | [_, changedDim] =>
      canonicalize ((meet lhs rhs).uniteDimensionSets changedDim (coord rhsDimToLhs changedDim))
    | _ => canonicalize (meet lhs rhs)

/-! ### Programs -/

/-- The types of the values, and those that a transpose computes. -/
structure Values (V : Type*) where
  shape : V → List Nat
  transposeOp : V → Option (List Nat × V)

namespace Values

variable {V α : Type*} [DecidableEq V] (vs : Values V)

/-- The dimensions of one operand as those of the other, if one is a transpose of the other. -/
def rhsDimToLhs (lhs rhs : V) : Option (List Nat) :=
  if lhs = rhs then some (List.range (vs.shape lhs).length)
  else
    match (vs.transposeOp lhs).filter fun p => rhs = p.2 with
    | some (permutation, _) => some permutation
    | none => ((vs.transposeOp rhs).filter fun p => lhs = p.2).map fun (permutation, _) =>
        (List.range permutation.length).map permutation.idxOf

/-- The operations, with what an elementwise one computes. -/
inductive Operation (V α : Type*)
  | transpose (operand : V) (permutation : List Nat)
  | broadcastInDim (operand : V) (broadcastDimensions shape : List Nat)
  | unary (compute : α → α) (operand : V)
  | binary (compute : α → α → α) (comm : ∀ a b, compute a b = compute b a) (lhs rhs : V)

def visitOperation (operandAnnotations : V → PartialSymmetryAnnotation) :
    Operation V α → PartialSymmetryAnnotation
  | .transpose operand permutation => propagateTranspose (operandAnnotations operand) permutation
  | .broadcastInDim operand broadcastDimensions shape =>
    propagateBroadcastInDim (operandAnnotations operand) shape.length broadcastDimensions
  | .unary _ operand => operandAnnotations operand
  | .binary _ _ lhs rhs =>
    propagateElementwiseBinary (operandAnnotations lhs) (operandAnnotations rhs) (vs.shape lhs).length
      (vs.rhsDimToLhs lhs rhs)

omit [DecidableEq V] in
/-- Values of the types, where a transpose has been computed. -/
structure Computes (env : V → Tensor α) : Prop where
  shape_eq : ∀ v, (env v).shape = vs.shape v
  transpose_eq : ∀ v permutation u, vs.transposeOp v = some (permutation, u) →
    Tensor.transpose permutation (env u) = some (env v)

namespace Operation

variable {V α : Type*}

def operands : Operation V α → List V
  | transpose operand _ => [operand]
  | broadcastInDim operand _ _ => [operand]
  | unary _ operand => [operand]
  | binary _ _ lhs rhs => [lhs, rhs]

def eval (env : V → Tensor α) : Operation V α → Option (Tensor α)
  | transpose operand permutation => Tensor.transpose permutation (env operand)
  | broadcastInDim operand broadcastDimensions shape =>
    Tensor.broadcastInDim (env operand) broadcastDimensions shape
  | unary compute operand => some ((env operand).map compute)
  | binary compute _ lhs rhs => zipWith compute (env lhs) (env rhs)

end Operation

end Values

/-! ### Transposes -/

variable {i j : Nat} {perm map : List Nat}

section

variable {α : Type*} {a : PartialSymmetryAnnotation} {x t : Tensor α}

variable {n : Nat} {f : α → α → α} {y : Tensor α}

theorem getSetId_mk_map {k : Nat} (f : Nat → Nat) (hk : k < n) :
    (⟨(range n).map f⟩ : PartialSymmetryAnnotation).getSetId k = f k := by
  rw [getSetId, coord_map_range _ hk]

theorem same_mk_map_iff (f : Nat → Nat) (hi : i < n) (hj : j < n) :
    (canonicalize ⟨(range n).map f⟩).Same i j ↔ f i = f j := by
  have hrank : (⟨(range n).map f⟩ : PartialSymmetryAnnotation).getRank = n := by simp [getRank]
  rw [same_canonicalize_iff (hrank.symm ▸ hi) (hrank.symm ▸ hj), Same, getSetId_mk_map f hi, getSetId_mk_map f hj]

theorem getRank_mk_map (n : Nat) (f : Nat → Nat) : (canonicalize ⟨(range n).map f⟩).getRank = n := by
  rw [getRank_canonicalize, getRank, length_map, length_range]

theorem valid_propagateTranspose (hx : a.Valid x) (h : transpose perm x = some t) :
    (a.propagateTranspose perm).Valid t := by
  obtain ⟨-, hlen, hdims⟩ := shape_transpose h
  have hrank : (a.propagateTranspose perm).getRank = a.getRank := getRank_mk_map _ _
  refine ⟨by rw [hrank, hx.rank_eq, hlen], fun i hi j hj hsame => ?_⟩
  rw [hrank] at hi hj
  have hsame := (same_mk_map_iff _ hi hj).mp hsame
  have hi' : i < x.shape.length := hx.rank_eq ▸ hi
  have hj' : j < x.shape.length := hx.rank_eq ▸ hj
  exact swappable_transpose h hi' hj' (hx.swappable _ (hx.rank_eq.symm ▸ (hdims i hi').1) _
    (hx.rank_eq.symm ▸ (hdims j hj').1) hsame)

/-! ### Broadcasts -/

theorem outputToInput_spec (dims : List Nat) (o : Nat) :
    match outputToInput dims o with
    | some i => i < dims.length ∧ coord dims i = o
    | none => o ∉ dims := by
  have hspec : ∀ n ≤ dims.length, match (range n).foldl (fun map i =>
      update map (coord dims i) (some i)) (fun _ => none) o with
      | some i => i < n ∧ coord dims i = o
      | none => ∀ i < n, coord dims i ≠ o := by
    intro n hn
    induction n with
    | zero => exact fun i hi => absurd hi (Nat.not_lt_zero i)
    | succ n ih =>
      rw [range_succ, foldl_append, foldl_cons, foldl_nil]
      by_cases heq : o = coord dims n
      · subst heq
        rw [update_self]
        exact ⟨Nat.lt_succ_self n, rfl⟩
      · rw [update_of_ne heq]
        have ih := ih (Nat.le_of_succ_le hn)
        split at ih
        · exact ⟨ih.1.trans (Nat.lt_succ_self n), ih.2⟩
        · intro i hi
          obtain hlt | rfl := Nat.lt_succ_iff_lt_or_eq.mp hi
          · exact ih i hlt
          · exact Ne.symm heq
  have hspec := hspec dims.length (le_refl _)
  rw [outputToInput]
  split at hspec
  · exact hspec
  · intro hmem
    obtain ⟨i, hi, heq⟩ := getElem_of_mem hmem
    refine hspec i hi ?_
    rw [coord, getD_eq_getElem _ _ hi, heq]

/-- Dimensions of the result that are all new, or from dimensions of the operand in one set. -/
def SameSource (a : PartialSymmetryAnnotation) (dims : List Nat) (i j : Nat) : Prop :=
  match outputToInput dims i, outputToInput dims j with
  | some i, some j => a.Same i j
  | none, none => True
  | _, _ => False

theorem lt_nextSetId {l : List Nat} (hn : n ∈ l) : n ≤ l.foldl max 0 := by
  have hle : ∀ (l : List Nat) (m : Nat), m ≤ l.foldl max m := by
    intro l
    induction l with
    | nil => exact fun m => le_refl m
    | cons k l ih => exact fun m => (le_max_left m k).trans (ih _)
  suffices hmem : ∀ m, n ≤ l.foldl max m from hmem 0
  induction l with
  | nil => cases hn
  | cons k l ih =>
    intro m
    obtain rfl | hn := mem_cons.mp hn
    · exact (le_max_right m n).trans (hle l _)
    · exact ih hn _

theorem same_propagateBroadcastInDim_iff {rank : Nat} {dims : List Nat} (hdims : dims.length = a.getRank)
    (hi : i < rank) (hj : j < rank) : (a.propagateBroadcastInDim rank dims).Same i j ↔ a.SameSource dims i j := by
  have hnext : ∀ k < a.getRank, a.getSetId k ≠ ((range a.getRank).map fun i => a.getSetId i + 1).foldl max 0 := by
    intro k hk
    have hle : a.getSetId k + 1 ≤ ((range a.getRank).map fun i => a.getSetId i + 1).foldl max 0 :=
      lt_nextSetId (mem_map.mpr ⟨k, mem_range.mpr hk, rfl⟩)
    exact Nat.ne_of_lt hle
  have hspecI := outputToInput_spec dims i
  have hspecJ := outputToInput_spec dims j
  refine (same_mk_map_iff _ hi hj).trans ?_
  rw [SameSource]
  cases hinputI : outputToInput dims i with
  | some i' =>
    rw [hinputI] at hspecI
    cases hinputJ : outputToInput dims j with
    | some j' => exact Iff.rfl
    | none => exact iff_of_false (hnext i' (hdims ▸ hspecI.1)) id
  | none =>
    cases hinputJ : outputToInput dims j with
    | some j' =>
      rw [hinputJ] at hspecJ
      exact iff_of_false (hnext j' (hdims ▸ hspecJ.1)).symm id
    | none => exact iff_of_true rfl trivial

/-- A broadcast has the annotation if and only if the dimensions of a set have one size, as they do if
none of them is broadcast along. -/
theorem valid_propagateBroadcastInDim_iff {dims shape : List Nat} (hx : a.Valid x)
    (h : broadcastInDim x dims shape = some t) :
    (a.propagateBroadcastInDim shape.length dims).Valid t ↔
      ∀ i < shape.length, ∀ j < shape.length, a.SameSource dims i j → coord shape i = coord shape j := by
  have hread := read_broadcastInDim h
  obtain ⟨hok, hshape⟩ := of_broadcastInDim h
  obtain ⟨hlen, hnodup, hextents⟩ := broadcastOk_iff.mp hok
  have hrank : (a.propagateBroadcastInDim shape.length dims).getRank = shape.length :=
    getRank_mk_map _ _
  have hdimsRank : dims.length = a.getRank := hlen.trans hx.rank_eq.symm
  constructor
  · intro hvalid i hi j hj hsame
    have hsame := (same_propagateBroadcastInDim_iff hdimsRank hi hj).mpr hsame
    have hsize := (hvalid.swappable i (hrank.symm ▸ hi) j (hrank.symm ▸ hj) hsame).size_eq
    rwa [hshape] at hsize
  · intro hsizes
    refine ⟨by rw [hrank, hshape], fun i hi j hj hsame => ?_⟩
    rw [hrank] at hi hj
    have hsrc := (same_propagateBroadcastInDim_iff hdimsRank hi hj).mp hsame
    refine ⟨by rw [hshape]; exact hsizes i hi j hj hsrc, fun c hc => ?_⟩
    have hspecI := outputToInput_spec dims i
    have hspecJ := outputToInput_spec dims j
    rw [SameSource] at hsrc
    rw [hread, hread]
    cases hinputI : outputToInput dims i with
    | none =>
      rw [hinputI] at hspecI hsrc
      cases hinputJ : outputToInput dims j with
      | some j' =>
        rw [hinputJ] at hsrc
        exact hsrc.elim
      | none =>
        -- No dimension of the operand is `i` or `j`.
        rw [hinputJ] at hspecJ
        refine read_congr x fun k hk => ?_
        have hk' : k < dims.length := hlen.symm ▸ hk
        have hmem : coord dims k ∈ dims := by
          rw [coord, getD_eq_getElem _ _ hk']
          exact getElem_mem hk'
        have hneI : coord dims k ≠ i := fun heq => hspecI (heq ▸ hmem)
        have hneJ : coord dims k ≠ j := fun heq => hspecJ (heq ▸ hmem)
        rw [comp_apply, swap_apply_of_ne_of_ne hneI hneJ]
    | some i' =>
      rw [hinputI] at hspecI hsrc
      cases hinputJ : outputToInput dims j with
      | none =>
        rw [hinputJ] at hsrc
        exact hsrc.elim
      | some j' =>
        rw [hinputJ] at hspecJ hsrc
        obtain ⟨hi', rfl⟩ := hspecI
        obtain ⟨hj', rfl⟩ := hspecJ
        have hswap := hx.swappable i' (hdimsRank ▸ hi') j' (hdimsRank ▸ hj') hsrc
        have hinj : ∀ k < dims.length, ∀ l < dims.length, coord dims k = coord dims l → k = l := by
          intro k hk l hl heq
          rw [coord, coord, getD_eq_getElem _ _ hk, getD_eq_getElem _ _ hl] at heq
          exact hnodup.getElem_inj_iff.mp heq
        have hwithin : Within x.shape fun k =>
            if coord x.shape k = 1 then 0 else c (coord dims k) := by
          intro k hk
          have hk' : k < dims.length := hlen.symm ▸ hk
          obtain ⟨hlt, hextent⟩ := hextents k hk'
          have hbound := hc (coord dims k) (hshape.symm ▸ hlt)
          rw [hshape] at hbound
          dsimp only
          split
          · rename_i hone
            rw [hone]
            exact zero_lt_one
          · rename_i hne
            rwa [hextent.resolve_left hne]
        rw [← hswap.read_swap _ hwithin]
        refine read_congr x fun k hk => ?_
        have hk' : k < dims.length := hlen.symm ▸ hk
        rw [comp_apply, comp_apply]
        by_cases hki : k = i'
        · subst hki
          rw [swap_apply_left, swap_apply_left, hswap.size_eq]
        · by_cases hkj : k = j'
          · subst hkj
            rw [swap_apply_right, swap_apply_right, hswap.size_eq]
          · rw [swap_apply_of_ne_of_ne hki hkj, swap_apply_of_ne_of_ne
              (fun heq => hki (hinj k hk' i' hi' heq)) fun heq => hkj (hinj k hk' j' hj' heq)]

/-! ### Elementwise operations -/

theorem valid_meet {lhs rhs : PartialSymmetryAnnotation} (hrank : lhs.getRank = t.shape.length)
    (h : ∀ i < lhs.getRank, ∀ j < lhs.getRank, lhs.Same i j → rhs.Same i j → Swappable t i j) :
    (lhs.meet rhs).Valid t :=
  valid_iff_refines.mpr ⟨getRank_meet.trans hrank,
    refines_meet_iff.mpr fun i hi j hj hsame => h i hi j hj hsame.1 hsame.2⟩

theorem swappable_map (f : α → α) (h : Swappable x i j) : Swappable (x.map f) i j :=
  ⟨h.size_eq, fun c hc => congrArg f (h.read_swap c hc)⟩

theorem read_zipWith (h : zipWith f x y = some t) :
    t.shape = x.shape ∧ y.shape = x.shape ∧ ∀ c, t.read c = f (x.read c) (y.read c) := by
  rw [zipWith] at h
  split at h
  · rename_i hshape
    cases h
    refine ⟨rfl, hshape.symm, fun c => ?_⟩
    rw [Tensor.read, Tensor.read, Tensor.read, ← hshape]
  · cases h

theorem swappable_zipWith (h : zipWith f x y = some t) (hx : Swappable x i j) (hy : Swappable y i j) :
    Swappable t i j := by
  obtain ⟨hshape, hshape', hread⟩ := read_zipWith h
  refine ⟨by rw [hshape, hx.size_eq], fun c hc => ?_⟩
  rw [hread, hread, hx.read_swap c (hshape ▸ hc), hy.read_swap c (by rw [hshape', ← hshape]; exact hc)]

theorem eq_swap_of_changedDims (hlt : ∀ d < n, coord map d < n)
    (hinj : ∀ d < n, ∀ e < n, coord map d = coord map e → d = e) (hchanged : changedDims n map = [i, j]) :
    i < n ∧ j < n ∧ coord map j = i ∧ ∀ d < n, coord map d = swap i j d := by
  have hmem : ∀ d, d = i ∨ d = j ↔ d < n ∧ coord map d ≠ d := by
    intro d
    have hiff : d ∈ changedDims n map ↔ d < n ∧ coord map d ≠ d := by
      rw [changedDims, mem_filter, mem_range, decide_eq_true_iff]
    rw [← hiff, hchanged, mem_cons, mem_singleton]
  obtain ⟨hi, hchangeI⟩ := (hmem i).mp (.inl rfl)
  obtain ⟨hj, hchangeJ⟩ := (hmem j).mp (.inr rfl)
  -- What a changed dimension is mapped to is changed too, for it would be mapped to itself.
  have hmaps : ∀ d, d = i ∨ d = j → coord map d = i ∨ coord map d = j := by
    intro d hd
    obtain ⟨hd, hchange⟩ := (hmem d).mp hd
    refine (hmem _).mpr ⟨hlt d hd, fun heq => hchange ?_⟩
    exact hinj _ (hlt d hd) _ hd heq
  have hij : coord map i = j := (hmaps i (.inl rfl)).resolve_left hchangeI
  have hji : coord map j = i := (hmaps j (.inr rfl)).resolve_right hchangeJ
  refine ⟨hi, hj, hji, fun d hd => ?_⟩
  by_cases hdi : d = i
  · rw [hdi, swap_apply_left, hij]
  · by_cases hdj : d = j
    · rw [hdj, swap_apply_right, hji]
    · rw [swap_apply_of_ne_of_ne hdi hdj]
      by_contra hchange
      exact ((hmem d).mpr ⟨hd, hchange⟩).elim hdi hdj

theorem swappable_zipWith_of_transposed (hcomm : ∀ a b, f a b = f b a) (h : zipWith f x y = some t)
    (hsize : coord x.shape i = coord x.shape j) (hread : ∀ c, x.read c = y.read (c ∘ swap i j)) : Swappable t i j := by
  obtain ⟨hshape, -, hzip⟩ := read_zipWith h
  refine ⟨by rw [hshape, hsize], fun c _ => ?_⟩
  have hback : y.read c = x.read (c ∘ swap i j) := by
    rw [hread]
    congr 1
    funext d
    simp
  rw [hzip, hzip, ← hread, ← hback, hcomm]

end

namespace Values

variable {V α : Type*} [DecidableEq V] {vs : Values V} {env : V → Tensor α}

theorem read_of_transpose {x t : Tensor α} (h : Tensor.transpose perm x = some t)
    (hswap : ∀ d < x.shape.length, perm.idxOf d = swap i j d) : ∀ c, t.read c = x.read (c ∘ swap i j) := by
  intro c
  rw [read_transpose h]
  refine read_congr x fun d hd => ?_
  rw [comp_apply, comp_apply, hswap d hd]

theorem read_of_rhsDimToLhs (henv : vs.Computes env) {lhs rhs : V} (h : vs.rhsDimToLhs lhs rhs = some map)
    (hshape : vs.shape rhs = vs.shape lhs) (hchanged : changedDims (vs.shape lhs).length map = [i, j]) :
    coord map j = i ∧ i < (vs.shape lhs).length ∧ j < (vs.shape lhs).length ∧
      coord (vs.shape lhs) i = coord (vs.shape lhs) j ∧
      ∀ c, (env lhs).read c = (env rhs).read (c ∘ swap i j) := by
  have hlhs := henv.shape_eq lhs
  have hrhs := (henv.shape_eq rhs).trans hshape
  generalize hn : (vs.shape lhs).length = n at hchanged ⊢
  rw [rhsDimToLhs] at h
  split at h
  · -- The same value has no dimension changed.
    cases h
    have hnone : changedDims n (range (vs.shape lhs).length) = [] := by
      refine filter_eq_nil_iff.mpr fun d hd => ?_
      simp [coord, hn, mem_range.mp hd]
    rw [hnone] at hchanged
    cases hchanged
  · split at h
    · rename_i perm u htranspose
      obtain ⟨hop, hu⟩ := filter_eq_some_iff.mp htranspose
      obtain rfl := some.inj h
      have hu : rhs = u := of_decide_eq_true hu
      have htranspose := henv.transpose_eq lhs perm u hop
      rw [← hu] at htranspose
      obtain ⟨-, -, hdims⟩ := shape_transpose htranspose
      rw [hrhs, hn] at hdims
      obtain ⟨hi, hj, hji, hswap⟩ := eq_swap_of_changedDims (fun d hd => (hdims d hd).1)
        (fun d hd e he heq => by rw [← (hdims d hd).2.1, heq, (hdims e he).2.1]) hchanged
      have hsize := (hdims j hj).2.2
      rw [hlhs, hji] at hsize
      refine ⟨hji, hi, hj, hsize.symm, read_of_transpose htranspose fun d hd => ?_⟩
      rw [hrhs, hn] at hd
      have hd' : swap i j d < n := swap_lt hi hj hd
      have hidx := (hdims _ hd').2.1
      rwa [hswap _ hd', swap_apply_self] at hidx
    · obtain ⟨⟨perm, u⟩, htranspose, rfl⟩ := map_eq_some_iff.mp h
      obtain ⟨hop, hu⟩ := filter_eq_some_iff.mp htranspose
      have hu : lhs = u := of_decide_eq_true hu
      have htranspose := henv.transpose_eq rhs perm u hop
      rw [← hu] at htranspose
      obtain ⟨hperm, -, hdims⟩ := shape_transpose htranspose
      rw [hlhs, hn] at hdims hperm
      have hlen : perm.length = n := by rw [hperm.length_eq, length_range]
      have hmap : ∀ d < n, coord ((range perm.length).map perm.idxOf) d = perm.idxOf d := fun d hd =>
        coord_map_range _ (hlen.symm ▸ hd)
      have hmem : ∀ d < n, d ∈ perm := fun d hd => hperm.mem_iff.mpr (mem_range.mpr hd)
      obtain ⟨hi, hj, hji, hswap⟩ := eq_swap_of_changedDims
        (fun d hd => by rw [hmap d hd, ← hlen]; exact idxOf_lt_length_of_mem (hmem d hd))
        (fun d hd e he heq => by
          rw [hmap d hd, hmap e he] at heq
          exact (idxOf_inj (hmem d hd)).mp heq) hchanged
      have hback : ∀ c, (env rhs).read c = (env lhs).read (c ∘ swap i j) :=
        read_of_transpose htranspose fun d hd => by
          rw [hlhs, hn] at hd
          rw [← hmap d hd, hswap d hd]
      have hcoord : coord perm i = j := by
        have hidx : perm.idxOf j = i := by rw [← hmap j hj, hji]
        have hlt := idxOf_lt_length_of_mem (hmem j hj)
        rw [← hidx, coord, getD_eq_getElem _ _ hlt, getElem_idxOf hlt]
      have hsize := (hdims i hi).2.2
      rw [hrhs, hcoord] at hsize
      refine ⟨hji, hi, hj, hsize, fun c => ?_⟩
      rw [hback]
      congr 1
      funext d
      simp

theorem valid_propagateElementwiseBinary (henv : vs.Computes env) {lhs rhs : V} {a b : PartialSymmetryAnnotation}
    (ha : a.Valid (env lhs)) (hb : b.Valid (env rhs)) {compute : α → α → α} (hcomm : ∀ m n, compute m n = compute n m)
    {t : Tensor α} (h : zipWith compute (env lhs) (env rhs) = some t) :
    (a.propagateElementwiseBinary b (vs.shape lhs).length (vs.rhsDimToLhs lhs rhs)).Valid t := by
  obtain ⟨hshape, hshape', -⟩ := read_zipWith h
  have hrank : a.getRank = t.shape.length := by rw [ha.rank_eq, hshape]
  have hranks : b.getRank = a.getRank := by rw [hb.rank_eq, ha.rank_eq, hshape']
  have hmeet : (a.meet b).Valid t := valid_meet hrank fun i hi j hj hsameA hsameB =>
    swappable_zipWith h (ha.swappable i hi j hj hsameA)
      (hb.swappable i (hranks.symm ▸ hi) j (hranks.symm ▸ hj) hsameB)
  have hcanonical : ∀ {a' : PartialSymmetryAnnotation}, a'.Valid t → a'.canonicalize.Valid t := by
    intro a' ha'
    rw [valid_iff_refines, getRank_canonicalize, refines_canonicalize_iff]
    exact valid_iff_refines.mp ha'
  unfold propagateElementwiseBinary
  split
  · exact hmeet
  · rename_i map hmap
    split
    · rename_i i j hchanged
      rw [henv.shape_eq lhs, henv.shape_eq rhs] at hshape'
      obtain ⟨hji, hi, hj, hsize, hread⟩ := read_of_rhsDimToLhs henv hmap hshape' hchanged
      have hlen : (vs.shape lhs).length = (a.meet b).getRank := by
        rw [getRank_meet, ha.rank_eq, henv.shape_eq]
      have hswap : Swappable t i j := by
        refine swappable_zipWith_of_transposed hcomm h ?_ hread
        rw [henv.shape_eq lhs, hsize]
      refine hcanonical (valid_iff_refines.mpr ⟨?_, ?_⟩)
      · rw [getRank_uniteDimensionSets, hmeet.rank_eq]
      · rw [hji, refines_uniteDimensionSets_iff (hlen ▸ hj) (hlen ▸ hi)]
        exact ⟨(valid_iff_refines.mp hmeet).2, hswap.symm⟩
    · exact hcanonical hmeet

/-- In a broadcast, the dimensions that end up in one set have one size: those that are of the operand
and in one set there, and those that are not of it. -/
def Operation.SizesOk (operandAnnotations : V → PartialSymmetryAnnotation) : Operation V α → Prop
  | .broadcastInDim operand broadcastDimensions shape =>
    ∀ i < shape.length, ∀ j < shape.length,
      (operandAnnotations operand).SameSource broadcastDimensions i j → coord shape i = coord shape j
  | _ => True

/-- The annotation of the result is valid, for a broadcast if and only if the dimensions of each set
have one size. -/
theorem valid_visitOperation_iff (henv : vs.Computes env) {op : Operation V α}
    {operandAnnotations : V → PartialSymmetryAnnotation}
    (hvalid : ∀ v ∈ op.operands, (operandAnnotations v).Valid (env v)) {t : Tensor α}
    (heval : op.eval env = some t) :
    (vs.visitOperation operandAnnotations op).Valid t ↔ op.SizesOk operandAnnotations := by
  cases op with
  | transpose operand permutation =>
    exact iff_of_true (valid_propagateTranspose (hvalid operand mem_cons_self) heval) trivial
  | broadcastInDim operand broadcastDimensions shape =>
    exact valid_propagateBroadcastInDim_iff (hvalid operand mem_cons_self) heval
  | unary compute operand =>
    have hoperand := hvalid operand mem_cons_self
    cases heval
    exact iff_of_true ⟨hoperand.rank_eq, fun i hi j hj hsame =>
      swappable_map compute (hoperand.swappable i hi j hj hsame)⟩ trivial
  | binary compute comm lhs rhs =>
    exact iff_of_true (valid_propagateElementwiseBinary henv (hvalid lhs mem_cons_self)
      (hvalid rhs (mem_cons_of_mem _ mem_cons_self)) comm heval) trivial

/-- A matrix and its transpose. -/
def matrixValues : Values Bool where
  shape _ := [2, 2]
  transposeOp v := if v then some ([1, 0], false) else none

def matrix (v : Bool) : Tensor Int :=
  ⟨[2, 2], fun idx => if v then 2 * coord idx 1 + coord idx 0 else 2 * coord idx 0 + coord idx 1⟩

theorem computes_matrix : matrixValues.Computes matrix := by
  refine ⟨fun v => by cases v <;> rfl, fun v permutation u h => ?_⟩
  cases v with
  | false => cases h
  | true =>
    cases some.inj h
    rfl

theorem valid_visitOperation_iff_add : (matrixValues.visitOperation (fun _ => createNotSymmetric 2)
      (.binary (· + ·) (fun a b : Int => add_comm a b) false true)).Valid
        ⟨[2, 2], fun idx => (matrix false).get idx + (matrix true).get idx⟩ ↔
      Operation.SizesOk (fun _ => createNotSymmetric 2)
        (.binary (· + ·) (fun a b : Int => add_comm a b) false true) :=
  valid_visitOperation_iff computes_matrix
    (fun v _ => valid_createNotSymmetric (matrix v)) rfl

/-- A scalar that is broadcast along two dimensions of different sizes. -/
def scalarValues : Values Unit where
  shape _ := []
  transposeOp _ := none

theorem not_valid_broadcast : ¬∀ (env : Unit → Tensor Int) (op : Operation Unit Int)
    (operandAnnotations : Unit → PartialSymmetryAnnotation) (t : Tensor Int),
    scalarValues.Computes env → (∀ v ∈ op.operands, (operandAnnotations v).Valid (env v)) →
      op.eval env = some t → (scalarValues.visitOperation operandAnnotations op).Valid t := by
  intro h
  have hvalid := h (fun _ => splat [] 7) (.broadcastInDim () [] [2, 3]) (fun _ => ⟨[]⟩) _
    ⟨fun _ => rfl, nofun⟩ (fun _ _ => ⟨rfl, fun i hi => absurd hi (Nat.not_lt_zero i)⟩) rfl
  have hsize := (hvalid.swappable 0 (by decide) 1 (by decide) (by unfold Same; decide)).size_eq
  exact absurd hsize (by decide)

end Values

end EnzymeJax.PartialSymmetryAnnotation
