import EnzymeJax.Analysis.SymmetryDot
import EnzymeJax.Analysis.SymmetryLattice
import EnzymeJax.Library.Along
import EnzymeJax.Library.Solver

/-!
# Annotating a program with its symmetries

The solver starts from full symmetry and visits operations in any order until no visit changes an annotation. The sets
it finds are written to attributes, from which they are read back to drop transposes.
-/

namespace EnzymeJax.PartialSymmetryAnnotation

open Tensor Function List

/-! ### Attributes -/

def createFullySymmetric (rank : Nat) : PartialSymmetryAnnotation := ⟨replicate rank 0⟩

/-- Each set is listed at its first dimension. -/
def getDimensionSets (a : PartialSymmetryAnnotation) : List (List Nat) :=
  ((range a.getRank).filter fun i => a.dimensionSetIDs.idxOf (a.getSetId i) = i).map fun i =>
    i :: (range a.getRank).filter fun k => k ≠ i ∧ a.getSetId k = a.getSetId i

/-- The dimensions of a set get the id of the first of them. -/
def uniteSet (ids : Nat → Nat) (dims : List Nat) : Nat → Nat :=
  (dims.drop 1).foldl (fun ids d => update ids d (ids (coord dims 0))) ids

def createFromDimensionSets (rank : Nat) (dimensionSets : List (List Nat)) : PartialSymmetryAnnotation :=
  canonicalize ⟨(range rank).map (dimensionSets.foldl uniteSet id)⟩

def dimensionSetAttrs (a : PartialSymmetryAnnotation) : List (List Nat) := a.getDimensionSets.filter (1 < ·.length)

/-- The array attribute of an operation. A result that has no sets gets no entry. -/
def annotate (results : List PartialSymmetryAnnotation) : List (List (List Nat)) :=
  (results.map dimensionSetAttrs).filter (· ≠ [])

def createFromIR (arrayAttr : List (List (List Nat))) (resultNumber rank : Nat) : Option PartialSymmetryAnnotation :=
  arrayAttr[resultNumber]?.map (createFromDimensionSets rank)

def TransposePartialSymmetrySimplify (annotationOpt : Option PartialSymmetryAnnotation) (perm : List Nat) : Bool :=
  annotationOpt.any fun annotation =>
    (range perm.length).all fun i => annotation.getSetId i = annotation.getSetId (coord perm i)

section

variable {a : PartialSymmetryAnnotation} {d k n : Nat}

theorem foldl_update {ds : List Nat} (hd : d ∉ ds) (ids : Nat → Nat) :
    ds.foldl (fun ids e => update ids e (ids d)) ids k = if k ∈ ds then ids d else ids k := by
  induction ds generalizing ids with
  | nil => rfl
  | cons e ds ih =>
    rw [foldl_cons, ih (not_mem_of_not_mem_cons hd), update_of_ne (ne_of_not_mem_cons hd)]
    by_cases hke : k = e
    · subst hke
      rw [update_self, ite_self, if_pos mem_cons_self]
    · simp [hke]

/-- After the sets that start at `firsts`, their dimensions have the id of the first of their set. -/
theorem foldl_uniteSet {f : Nat → Nat} {rest : Nat → List Nat} {firsts : List Nat}
    (hfirsts : ∀ i ∈ firsts, i < n ∧ f i = i) (hrest : ∀ i ∈ firsts, ∀ k < n, k ∈ rest i ↔ k ≠ i ∧ f k = i) :
    ∀ k < n, (firsts.map fun i => i :: rest i).foldl uniteSet id k = if f k ∈ firsts then f k else k := by
  induction firsts using reverseRecOn with
  | nil => exact fun _ _ => rfl
  | append_singleton firsts i ih =>
    intro k hk
    obtain ⟨hi, hfi⟩ := hfirsts i (mem_append_right _ mem_cons_self)
    have hresti := hrest i (mem_append_right _ mem_cons_self)
    have ih := ih (fun j hj => hfirsts j (mem_append_left _ hj)) fun j hj => hrest j (mem_append_left _ hj)
    rw [map_append, foldl_append]
    refine (foldl_update (fun h => ((hresti i hi).mp h).1 rfl) _).trans ?_
    rw [ih i hi, ih k hk, if_congr (hresti k hk) rfl rfl]
    grind

theorem getRank_createFromDimensionSets (rank : Nat) (sets : List (List Nat)) :
    (createFromDimensionSets rank sets).getRank = rank := getRank_mk_map _ _

/-- The sets of two or more dimensions are all that there is to an annotation. -/
theorem createFromDimensionSets_dimensionSetAttrs (a : PartialSymmetryAnnotation) :
    createFromDimensionSets a.getRank a.dimensionSetAttrs = a.canonicalize := by
  let f : Nat → Nat := fun k => a.dimensionSetIDs.idxOf (a.getSetId k)
  let rest : Nat → List Nat := fun i => (range a.getRank).filter fun k => k ≠ i ∧ a.getSetId k = a.getSetId i
  let firsts := ((range a.getRank).filter fun i => f i = i).filter fun i => 1 < (i :: rest i).length
  have hspec : ∀ k < a.getRank, f k < a.getRank ∧ a.Same (f k) k := fun k hk => first_spec hk
  have hiff : ∀ k < a.getRank, ∀ i < a.getRank, f k = f i ↔ a.Same k i := fun k hk i hi =>
    ⟨fun h => (hspec k hk).2.symm.trans ((congrArg a.getSetId h).trans (hspec i hi).2),
      fun h => congrArg a.dimensionSetIDs.idxOf h⟩
  have hfirsts : ∀ i ∈ firsts, i < a.getRank ∧ f i = i := fun i hi => by simpa using (mem_filter.mp hi).1
  have hrest : ∀ i < a.getRank, f i = i → ∀ k < a.getRank, k ∈ rest i ↔ k ≠ i ∧ f k = i := by
    intro i hi hfi k hk
    have hki := hiff k hk i hi
    rw [hfi] at hki
    simp only [rest, mem_filter, mem_range, decide_eq_true_iff, hki]
    exact and_iff_right hk
  have hattrs : a.dimensionSetAttrs = firsts.map fun i => i :: rest i := filter_map
  have hids : ∀ k < a.getRank, a.dimensionSetAttrs.foldl uniteSet id k = f k := by
    intro k hk
    rw [hattrs, foldl_uniteSet hfirsts (fun i hi => hrest i (hfirsts i hi).1 (hfirsts i hi).2) k hk]
    split
    · rfl
    · -- The set of `k` has no other dimension.
      rename_i hnot
      have hfk : f (f k) = f k := congrArg a.dimensionSetIDs.idxOf (hspec k hk).2
      by_contra hne
      have hmem := (hrest _ (hspec k hk).1 hfk k hk).mpr ⟨hne, rfl⟩
      refine hnot (mem_filter.mpr ⟨by simp [hspec k hk, hfk], ?_⟩)
      simpa using length_pos_of_mem hmem
  refine canonicalize_eq (by simp [getRank]) fun i hi j hj => ?_
  replace hi : i < a.getRank := by simpa [getRank] using hi
  replace hj : j < a.getRank := by simpa [getRank] using hj
  rw [Same, getSetId_mk_map _ hi, getSetId_mk_map _ hj, hids i hi, hids j hj, hiff i hi j hj]

theorem createFromIR_annotate_singleton (a : PartialSymmetryAnnotation) : createFromIR (annotate [a]) 0 a.getRank =
    if a.dimensionSetAttrs = [] then none else some a.canonicalize := by
  by_cases ha : a.dimensionSetAttrs = []
  · simp [annotate, createFromIR, ha]
  · rw [if_neg ha, ← createFromDimensionSets_dimensionSetAttrs]
    simp [annotate, createFromIR, ha]

/-- A transpose of a tensor for which the dropped one is dropped is the tensor. -/
theorem same_of_simplify {α : Type*} {x t : Tensor α} {perm : List Nat} (ha : a.Valid x) (h : transpose perm x = some t)
    (hdropped : TransposePartialSymmetrySimplify (some a) perm = true) : Tensor.Same t x := by
  obtain ⟨hperm, hlen, hdims⟩ := shape_transpose h
  have hpermLen : perm.length = x.shape.length := hperm.length_eq.trans length_range
  have hswap : ∀ i < x.shape.length, Swappable x (coord perm i) i := by
    intro i hi
    have hsame := of_decide_eq_true (all_eq_true.mp hdropped i (mem_range.mpr (hpermLen.symm ▸ hi)))
    have hlt := (hdims i hi).1
    rw [← ha.rank_eq] at hi hlt
    exact ha.swappable _ hlt i hi hsame.symm
  have hsizes : ∀ d < x.shape.length, coord t.shape d = coord x.shape d := fun d hd => by
    rw [(hdims d hd).2.2, (hswap d hd).size_eq]
  have hshape : t.shape = x.shape := by
    rw [← map_coord_range hlen, map_congr_left fun d hd => hsizes d (mem_range.mp hd), map_coord_range rfl]
  refine ⟨hshape, fun idx hidx => ?_⟩
  have hrange : x.read (coord idx) = x.read (Tensor.place (range x.shape.length) (coord idx)) :=
    read_congr x fun d hd => by
      have hplace := place_getElem (u := coord idx) nodup_range (length_range.symm ▸ hd : d < (range x.shape.length).length)
      rwa [getElem_range, eq_comm] at hplace
  rw [← read_coord t hidx, ← read_coord x (hshape ▸ hidx), read_transpose h, hrange]
  refine read_place_congr hperm (.refl _) (forall₂_iff_get.mpr ⟨by simp [hpermLen], fun i hi hi' => ?_⟩)
    (within_place hperm fun p hp => ?_)
  · have hlt := hpermLen ▸ hi
    simpa [coord_eq_getElem hi] using hswap i hlt
  · have hlt := hpermLen ▸ hp
    rw [← coord_eq_getElem hp, (hswap p hlt).size_eq, ← hshape]
    exact (within_coord hidx) p (hlen.symm ▸ hlt)

end

/-! ### The solver -/

/-- The operations that are looked at. A constant comes with its value. -/
inductive Op (V R : Type*)
  | operation (op : Values.Operation V R)
  | dotGeneral (lhs rhs : V) (dims : DotDims)
  | constant (attr : DenseElementsAttr) (value : Tensor R)

namespace Op

variable {V R : Type*}

def operands : Op V R → List V
  | operation op => op.operands
  | dotGeneral lhs rhs _ => [lhs, rhs]
  | constant _ _ => []

def eval [CommRing R] (env : V → Tensor R) : Op V R → Option (Tensor R)
  | operation op => op.eval env
  | dotGeneral lhs rhs dims => Tensor.dotGeneral dims (env lhs) (env rhs)
  | constant _ value => some value

end Op

/-- A program without regions, whose operations have one result. A value without an operation is an argument, which
is an entry, or the result of an operation that is not looked at. -/
structure Program (V R : Type*) where
  shape : V → List Nat
  definingOp : V → Option (Op V R)
  entry : V → Bool
  attr : V → Option (List (List Nat))
  position : V → Nat
  position_lt : ∀ v op, definingOp v = some op → ∀ u ∈ op.operands, position u < position v

namespace Program

variable {V R : Type*} (p : Program V R)

def values : Values V :=
  ⟨p.shape, fun v => match p.definingOp v with
    | some (.operation (.transpose operand permutation)) => some (permutation, operand)
    | _ => none⟩

def existing (v : V) : Option PartialSymmetryAnnotation := (p.attr v).map (createFromDimensionSets (p.shape v).length)

/-- What is annotated is trusted, and only the entries are taken not to be symmetric. -/
def initial (v : V) : PartialSymmetryAnnotation :=
  (p.existing v).getD <|
    if p.entry v then createNotSymmetric (p.shape v).length else createFullySymmetric (p.shape v).length

variable [DecidableEq V]

def propagated (v : V) (s : V → PartialSymmetryAnnotation) : Op V R → PartialSymmetryAnnotation
  | .operation op => p.values.visitOperation s op
  | .dotGeneral lhs rhs dims =>
    (s lhs).propagateDotGeneral (s rhs) (p.shape v).length dims (p.values.rhsDimToLhs lhs rhs)
  | .constant attr _ => checkConstant attr

def solver : Solver V PartialSymmetryAnnotation :=
  ⟨p.initial, fun v => (p.definingOp v).map fun op s => p.propagated v s op, meet⟩

/-- The annotation of an operation stays as it was if there is none to write. -/
def annotated (s : V → PartialSymmetryAnnotation) (v : V) : Option PartialSymmetryAnnotation :=
  if p.entry v then p.existing v
  else (createFromIR (annotate [s v]) 0 (p.shape v).length).or (p.existing v)

/-- The dimensions that a broadcast unites have one size, what an exchange in a product unites may be swapped there,
and elements of a constant that compare as equal are equal. -/
def Ok (env : V → Tensor R) (s : V → PartialSymmetryAnnotation) (v : V) : Op V R → Prop
  | .operation op => op.SizesOk s
  | .dotGeneral lhs rhs dims => ∀ map, p.values.rhsDimToLhs lhs rhs = some map → (s lhs).ExchangeValid dims map →
      ∀ q ∈ exchangePairs (s lhs) (s rhs) dims map, Swappable (env v) q.1 q.2
  | .constant attr value => attr.shape = value.shape ∧
      ∀ i < attr.shape.length, ∀ j < attr.shape.length, Leaves i j attr → Swappable value i j

variable [CommRing R]

omit [DecidableEq V] in
structure Computes (env : V → Tensor R) : Prop where
  shape_eq : ∀ v, (env v).shape = p.shape v
  eval_eq : ∀ v op, p.definingOp v = some op → op.eval env = some (env v)

variable {p} {env : V → Tensor R} {s : V → PartialSymmetryAnnotation} {v : V} {visits : List V} {op : Op V R}

omit [DecidableEq V] in
theorem Computes.values (henv : p.Computes env) : p.values.Computes env := by
  refine ⟨henv.shape_eq, fun v permutation u h => ?_⟩
  simp only [Program.values] at h
  split at h
  · rename_i hop
    cases h
    exact henv.eval_eq v _ hop
  · cases h

theorem valid_propagated (henv : p.Computes env) (hop : p.definingOp v = some op)
    (hvalid : ∀ u ∈ op.operands, (s u).Valid (env u)) (hok : p.Ok env s v op) :
    (p.propagated v s op).Valid (env v) := by
  have heval := henv.eval_eq v op hop
  cases op with
  | operation op =>
    cases op with
    | transpose operand permutation => exact valid_propagateTranspose (hvalid operand mem_cons_self) heval
    | broadcastInDim operand broadcastDimensions shape =>
      exact (valid_propagateBroadcastInDim_iff (hvalid operand mem_cons_self) heval).mpr hok
    | unary compute operand =>
      have hoperand := hvalid operand mem_cons_self
      rw [← Option.some_inj.mp heval]
      exact ⟨hoperand.rank_eq, fun i hi j hj hsame => swappable_map compute (hoperand.swappable i hi j hj hsame)⟩
    | binary compute comm lhs rhs =>
      exact Values.valid_propagateElementwiseBinary henv.values (hvalid lhs mem_cons_self)
        (hvalid rhs (mem_cons_of_mem _ mem_cons_self)) comm heval
  | dotGeneral lhs rhs dims =>
    rw [propagated, ← henv.shape_eq]
    exact (valid_propagateDotGeneral_iff (hvalid lhs mem_cons_self) (hvalid rhs (mem_cons_of_mem _ mem_cons_self))
      heval).mpr hok
  | constant attr value =>
    rw [← Option.some_inj.mp heval]
    exact valid_iff_refines.mpr ⟨(getRank_checkConstant attr).trans (congrArg length hok.1),
      refines_checkConstant_iff.mpr hok.2⟩

omit [CommRing R] in
theorem getRank_run (visits : List V) (v : V) : (p.solver.run visits v).getRank = (p.shape v).length := by
  refine Solver.run_induction (P := fun v (a : PartialSymmetryAnnotation) => a.getRank = (p.shape v).length)
    (fun v => ?_) (fun s v f hs _ => ?_) visits v
  · change (p.initial v).getRank = _
    rw [initial, existing]
    cases p.attr v with
    | some dimensionSets => exact getRank_createFromDimensionSets _ _
    | none =>
      rw [Option.map_none, Option.getD_none]
      split
      · exact getRank_createNotSymmetric _
      · exact length_replicate
  · exact getRank_meet.trans (hs v)

omit [CommRing R] in
theorem run_of_none (h : p.definingOp v = none) (visits : List V) : p.solver.run visits v = p.initial v :=
  Solver.run_of_none (Option.map_eq_none_iff.mpr h) visits

theorem potential_le (a : PartialSymmetryAnnotation) : potential a ≤ a.getRank + 1 := by
  have hle := numSets_le a
  rw [potential]
  split <;> omega

section

variable (henv : p.Computes env) (hsettled : p.solver.Settled (p.solver.run visits))
  (hok : ∀ v op, p.definingOp v = some op → p.Ok env (p.solver.run visits) v op)

include henv hsettled hok

theorem valid_run (h : ∀ v, p.definingOp v = none → (p.initial v).Valid (env v)) (v : V) :
    (p.solver.run visits v).Valid (env v) := by
  refine hsettled.induction (P := fun v a => a.Valid (env v)) (measure p.position).wf (fun v hv => ?_)
    (fun v f hf ih => ?_) v
  · have hnone := Option.map_eq_none_iff.mp hv
    exact run_of_none hnone visits ▸ h v hnone
  · obtain ⟨op, hop, rfl⟩ := Option.map_eq_some_iff.mp hf
    have hvalid := valid_propagated henv hop (fun u hu => ih u (p.position_lt v op hop u hu)) (hok v op hop)
    have hrank : (p.solver.run visits v).getRank = (env v).shape.length := by rw [getRank_run, henv.shape_eq]
    rw [← hvalid.rank_eq] at hrank
    exact valid_meet (hrank.trans hvalid.rank_eq) fun i hi j hj _ hsame =>
      hvalid.swappable i (hrank ▸ hi) j (hrank ▸ hj) hsame

/-- What the solver finds is valid in every run if and only if what it starts from is, for the values that it never
looks at. -/
theorem valid_iff :
    (∀ v, (p.solver.run visits v).Valid (env v)) ↔ ∀ v, p.definingOp v = none → (p.initial v).Valid (env v) :=
  ⟨fun h v hv => run_of_none hv visits ▸ h v, valid_run henv hsettled hok⟩

end

/-! ### A symmetric matrix and its transpose -/

def matrixProgram : Program Bool Int where
  shape _ := [2, 2]
  definingOp v := if v then some (.operation (.transpose false [1, 0])) else none
  entry v := !v
  attr v := if v then none else some [[0, 1]]
  position v := v.toNat
  position_lt v op hop u hu := by
    cases v with
    | false => cases hop
    | true =>
      cases hop
      cases mem_singleton.mp hu
      decide

def matrixEnv (v : Bool) : Tensor Int :=
  if v then ⟨[2, 2], fun idx => if coord idx 1 = coord idx 0 then 1 else 0⟩ else identityMatrix

theorem computes_matrixEnv : matrixProgram.Computes matrixEnv := by
  refine ⟨fun v => by cases v <;> rfl, fun v op hop => ?_⟩
  cases v with
  | false => cases hop
  | true =>
    cases hop
    rfl

theorem settled_matrixProgram : matrixProgram.solver.Settled (matrixProgram.solver.run [true]) := by
  refine fun v => funext fun u => ?_
  cases v <;> cases u <;> decide

theorem ok_matrixProgram (v : Bool) (op : Op Bool Int) (hop : matrixProgram.definingOp v = some op) :
    matrixProgram.Ok matrixEnv (matrixProgram.solver.run [true]) v op := by
  cases v with
  | false => cases hop
  | true =>
    cases hop
    trivial

theorem valid_initial_matrixProgram (v : Bool)
    (h : matrixProgram.definingOp v = none ∨ (matrixProgram.attr v).isSome) :
    (matrixProgram.initial v).Valid (matrixEnv v) := by
  cases v with
  | false => exact (by decide : matrixProgram.initial false = ⟨[0, 0]⟩) ▸ valid_identityMatrix
  | true => exact absurd h (by decide)

theorem valid_iff_matrix : (∀ v, (matrixProgram.solver.run [true] v).Valid (matrixEnv v)) ↔
    ∀ v, matrixProgram.definingOp v = none → (matrixProgram.initial v).Valid (matrixEnv v) :=
  valid_iff computes_matrixEnv settled_matrixProgram ok_matrixProgram

end Program

end EnzymeJax.PartialSymmetryAnnotation
