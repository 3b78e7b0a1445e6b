import EnzymeJax.Analysis.VerdictGraph
import EnzymeJax.Library.SymmetricMatrix

/-!
# Symmetric results

The analysis of matrices that equal their transposes. Elements are those of a commutative ring.
-/

namespace EnzymeJax.SymmetricResultAnalysis

open Tensor GuaranteedResultAnalysis List Option

/-- An elementwise operation, which may be known to be commutative. -/
structure Elementwise (R : Type*) where
  compute : List R → R
  isCommutative : Bool
  comm : isCommutative = true → ∀ a b, compute [a, b] = compute [b, a]

/-- The operations that the analysis tells apart, and any other, by what it computes. -/
inductive Op (V R : Type*)
  | constant (isComplex : Bool) (value : Tensor R)
  | transpose (permutation : List Nat) (operand : V)
  | broadcastInDim (dims shape : List Nat) (operand : V)
  | elementwise (f : Elementwise R) (shape : List Nat) (operands : List V)
  | dotGeneral (dims : DotDims) (lhs rhs : V)
  | syrk (operands : List V) (compute : List (Tensor R) → Tensor R)
  | other (operands : List V) (compute : List (Tensor R) → List (Tensor R))

namespace Op

variable {V R : Type*}

def operands : Op V R → List V
  | constant _ _ => []
  | transpose _ operand => [operand]
  | broadcastInDim _ _ operand => [operand]
  | elementwise _ _ operands => operands
  | dotGeneral _ lhs rhs => [lhs, rhs]
  | syrk operands _ => operands
  | other operands _ => operands

variable [CommRing R]

/-- The element of an operand. A scalar stands for a tensor of any shape. -/
def element (x : Tensor R) (idx : List Nat) : R := if x.shape = [] then x.get [] else x.get idx

/-- The result with the number `n`. All but other operations have one result. -/
def eval (env : V → Tensor R) (n : Nat) : Op V R → Option (Tensor R)
  | constant _ value => some value
  | transpose permutation operand => Tensor.transpose permutation (env operand)
  | broadcastInDim dims shape operand => Tensor.broadcastInDim (env operand) dims shape
  | elementwise f shape operands =>
    if ∀ d ∈ operands, (env d).shape = [] ∨ (env d).shape = shape then
      some ⟨shape, fun idx => f.compute (operands.map fun d => element (env d) idx)⟩
    else none
  | dotGeneral dims lhs rhs => Tensor.dotGeneral dims (env lhs) (env rhs)
  | syrk operands compute => some (compute (operands.map env))
  | other operands compute => (compute (operands.map env))[n]?

end Op

/-- The operations of a program, their values and the shapes of these. A block argument has no defining operation. -/
structure Program (V O R : Type*) where
  definingOp : V → Option O
  resultNumber : V → Nat
  op : O → Op V R
  shape : V → List Nat
  acyclic : WellFounded fun d v => ∃ o, definingOp v = some o ∧ d ∈ (op o).operands

namespace Program

variable {V O R : Type*} [CommRing R] (p : Program V O R)

def getDefiningOp (v : V) : Option (Op V R) := (p.definingOp v).map p.op

/-- The values of a run, with those of the block arguments as they may be. The results of `syrk` are symmetric. -/
structure Computes (env : V → Tensor R) : Prop where
  shape_eq : ∀ v, (env v).shape = p.shape v
  eval_eq : ∀ v op, p.getDefiningOp v = some op → op.eval env (p.resultNumber v) = some (env v)
  syrk : ∀ v operands compute, p.getDefiningOp v = some (.syrk operands compute) → (env v).Symmetric

def EqualsTranspose (v : V) : Prop :=
  (p.shape v).length = 2 → ∀ env, p.Computes env → ∃ t, Tensor.transpose [1, 0] (env v) = some t ∧ Same t (env v)

def hasOp (v : V) : Bool := (p.definingOp v).isSome

/-! ### The analysis -/

section

variable {α : Type*} [DecidableEq α]

/-- All elements are the same one. -/
def isSplat (t : Tensor α) : Prop := ∃ a ∈ (indices t.shape).image t.get, t.All (· = a)

instance (t : Tensor α) : Decidable (isSplat t) :=
  inferInstanceAs (Decidable (∃ a ∈ (indices t.shape).image t.get, ∀ idx ∈ indices t.shape, t.get idx = a))

def checkConstantSymmetric (t : Tensor α) : Bool :=
  if t.shape.length = 0 then true
  else if t.shape.length ≠ 2 then false
  else if coord t.shape 0 ≠ coord t.shape 1 then false
  else if isSplat t then true
  else decide (∀ i < coord t.shape 0, ∀ j < coord t.shape 0, i < j → t.get [i, j] = t.get [j, i])

/-- A splat is checked as a scalar. -/
def guaranteedConstant (isComplex : Bool) (t : Tensor α) : Bool :=
  !isComplex && (decide (t.shape ≠ [] ∧ isSplat t) || checkConstantSymmetric t)

end

variable [DecidableEq V] [DecidableEq R]

/-- The operand, if the value is the transpose of a matrix. -/
def transposeOf (v : V) : Option V :=
  match p.getDefiningOp v with
  | some (.transpose permutation operand) => if permutation = [1, 0] then some operand else none
  | _ => none

def dotVerdict (dims : DotDims) (lhs rhs : V) : Verdict V :=
  match dims.lhsBatching, dims.rhsBatching, dims.lhsContracting, dims.rhsContracting with
  | [], [], [c], [c'] =>
    if lhs = rhs ∧ c = c' then .guaranteed
    else if lhs = rhs ∧ c + c' = 1 then .operands [lhs] fun _ => false
    else if p.transposeOf lhs = some rhs ∧ c + c' = 1 then .guaranteed
    else if p.transposeOf rhs = some lhs ∧ c + c' = 1 then .guaranteed
    else .notGuaranteed
  | _, _, _, _ => .notGuaranteed

def isOfTransposes (f : Elementwise R) : List V → Bool
  | [lhs, rhs] => f.isCommutative && (p.transposeOf rhs = some lhs || p.transposeOf lhs = some rhs)
  | _ => false

/-- What is said of the result of an operation with the shape. Constants are decided before. -/
def localVerdict (shape : List Nat) (op : Op V R) : Verdict V :=
  if shape.length ≠ 2 then .notGuaranteed
  else if coord shape 0 ≠ coord shape 1 then .notGuaranteed
  else match op with
    | .constant _ _ => .notGuaranteed
    | .syrk _ _ => .guaranteed
    | .broadcastInDim dims _ operand => if (p.shape operand).length = 0 ∧ dims = [] then .guaranteed else .notGuaranteed
    | .elementwise f _ operands =>
      if p.isOfTransposes f operands then .guaranteed else .operands operands fun _ => false
    | .dotGeneral dims lhs rhs => p.dotVerdict dims lhs rhs
    | .transpose _ _ => .notGuaranteed
    | .other _ _ => .notGuaranteed

def verdict (v : V) : Verdict V :=
  match p.getDefiningOp v with
  | none => .notGuaranteed
  | some (.constant isComplex value) => if guaranteedConstant isComplex value then .guaranteed else .notGuaranteed
  | some op => p.localVerdict (p.shape v) op

omit [CommRing R] [DecidableEq R] in
theorem dotVerdict_ne_pending (dims : DotDims) (lhs rhs : V) : p.dotVerdict dims lhs rhs ≠ .pending [] := by
  rw [dotVerdict]
  repeat' split
  all_goals nofun

omit [CommRing R] in
theorem verdict_ne_pending (v : V) : p.verdict v ≠ .pending [] := by
  rw [verdict]
  split
  · nofun
  · split <;> nofun
  · unfold localVerdict
    repeat' split
    all_goals first | exact p.dotVerdict_ne_pending _ _ _ | nofun

def graph : Graph V := ⟨p.hasOp, p.verdict, p.verdict_ne_pending⟩

def guaranteed (fuel : Nat) (a : GuaranteedResultAnalysis V) (v : V) : Option (Bool × GuaranteedResultAnalysis V) :=
  GuaranteedResultAnalysis.guaranteed p.hasOp p.graph.localGuaranteed fuel a v

/-- What is known after some queries. An analysis may be a new one, that finds the attributes of those before. -/
inductive Known (fuel : Nat) : GuaranteedResultAnalysis V → Prop
  | start : Known fuel ⟨fun _ => none, fun _ => none⟩
  | query {a a' : GuaranteedResultAnalysis V} {v : V} {guaranteed' : Bool} (h : Known fuel a)
      (hquery : p.guaranteed fuel a v = some (guaranteed', a')) : Known fuel a'
  | renew {a : GuaranteedResultAnalysis V} (h : Known fuel a) : Known fuel ⟨fun _ => none, a.attr⟩

/-- In a program with a run, the matrices that are splats are square. -/
def SplatsSquare : Prop :=
  (∃ env, p.Computes env) → ∀ v value, p.getDefiningOp v = some (.constant false value) →
    value.shape.length = 2 → isSplat value → coord value.shape 0 = coord value.shape 1

/-! ### The queries -/

section

variable {p} [Fintype V] {fuel : Nat} {a : GuaranteedResultAnalysis V}

def bound (p : Program V O R) : Nat := 2 * ∑ v, (p.verdict v).needs.length + 5

omit [CommRing R] in
theorem guaranteed_spec (hfuel : p.bound ≤ fuel) (ha : p.graph.meaning.Correct a) (v : V) :
    ∃ guaranteed' a', p.guaranteed fuel a v = some (guaranteed', a') ∧
      (guaranteed' = true ↔ p.graph.Guaranteed v) ∧ p.graph.meaning.Correct a' := by
  obtain ⟨guaranteed', a', hquery, hiff, hcorrect, -⟩ := Meaning.guaranteed_spec p.hasOp
    (Graph.localGuaranteed_ok p.graph Finset.univ) (fun _ _ d _ => Finset.mem_univ d) ha (Finset.mem_univ v) hfuel
  exact ⟨guaranteed', a', hquery, hiff, hcorrect⟩

omit [CommRing R] in
theorem Known.correct (hfuel : p.bound ≤ fuel) (h : p.Known fuel a) : p.graph.meaning.Correct a := by
  induction h with
  | start => exact ⟨nofun, nofun⟩
  | @query a a' v guaranteed' _ hquery ih =>
    obtain ⟨guaranteed'', a'', hquery', -, hcorrect⟩ := guaranteed_spec hfuel ih v
    rw [hquery] at hquery'
    obtain ⟨-, rfl⟩ := Prod.mk.inj (some.inj hquery')
    exact hcorrect
  | renew _ ih => exact ⟨nofun, ih.attr⟩

end

/-! ### Symmetric results -/

section

variable {p} {env : V → Tensor R} {v : V} {op : Op V R}

variable {t : Tensor R} {f : Elementwise R} {shape : List Nat} {operands : List V} {lhs rhs : V}

omit [CommRing R] [DecidableEq V] in
theorem symmetric_of_splat (hrank : t.shape.length = 2) (hsplat : isSplat t)
    (hsquare : coord t.shape 0 = coord t.shape 1) : t.Symmetric := by
  obtain ⟨a, -, hall⟩ := hsplat
  refine ⟨hsquare, fun i j hij => ?_⟩
  have hji : [j, i] ∈ indices t.shape := by
    rw [shape_eq_pair hrank, pair_mem_indices] at hij ⊢
    exact ⟨hsquare ▸ hij.2, hsquare ▸ hij.1⟩
  rw [hall _ hij, hall _ hji]

omit [CommRing R] [DecidableEq V] in
theorem symmetric_of_constant {isComplex : Bool} (h : guaranteedConstant isComplex t = true)
    (hrank : t.shape.length = 2) (hsquare : isSplat t → coord t.shape 0 = coord t.shape 1) : t.Symmetric := by
  rw [guaranteedConstant, Bool.and_eq_true, Bool.or_eq_true, decide_eq_true_iff] at h
  obtain ⟨-, ⟨-, hsplat⟩ | hcheck⟩ := h
  · exact symmetric_of_splat hrank hsplat (hsquare hsplat)
  · rw [checkConstantSymmetric, if_neg (by omega), if_neg (by omega)] at hcheck
    split at hcheck
    · cases hcheck
    · rename_i hsize
      rw [Decidable.not_not] at hsize
      split at hcheck
      · rename_i hsplat
        exact symmetric_of_splat hrank hsplat hsize
      · have hswap := of_decide_eq_true hcheck
        rw [symmetric_iff (shape_eq_pair hrank), ← hsize]
        refine ⟨rfl, fun i hi j hj => ?_⟩
        obtain hlt | rfl | hlt := lt_trichotomy i j
        · exact hswap i hi j hj hlt
        · rfl
        · exact (hswap j hj i hi hlt).symm

omit [DecidableEq V] [DecidableEq R] in
theorem transpose_of_transposeOf {u : V} (henv : p.Computes env) (h : p.transposeOf v = some u) :
    Tensor.transpose [1, 0] (env u) = some (env v) ∧ (env u).shape.length = 2 := by
  rw [transposeOf] at h
  split at h
  · rename_i permutation operand hop
    split at h
    · rename_i hperm
      subst hperm
      cases h
      have heval := henv.eval_eq v _ hop
      exact ⟨heval, (shape_transpose heval).1.length_eq.trans length_range |>.symm⟩
    · cases h
  · cases h

omit [DecidableEq V] [DecidableEq R] in
theorem symmetric_elementwise {n : Nat} (h : Op.eval env n (.elementwise f shape operands) = some t)
    (hrank : t.shape.length = 2) (hsquare : coord t.shape 0 = coord t.shape 1)
    (hsymm : ∀ d ∈ operands, (env d).shape.length = 2 → (env d).Symmetric) : t.Symmetric := by
  obtain ⟨hshapes, h⟩ := ite_none_right_eq_some.mp h
  cases h
  refine ⟨hsquare, fun i j hij => congrArg f.compute (map_congr_left fun d hd => ?_)⟩
  rw [Op.element, Op.element]
  obtain hscalar | hshape := hshapes d hd
  · rw [if_pos hscalar, if_pos hscalar]
  · have hne : (env d).shape ≠ [] := fun hnil => by
      rw [← hshape, hnil] at hrank
      cases hrank
    rw [if_neg hne, if_neg hne]
    refine (hsymm d hd (hshape ▸ hrank)).get_swap i j ?_
    rwa [hshape]

omit [DecidableEq V] [DecidableEq R] in
theorem symmetric_of_transposes {n : Nat} (h : Op.eval env n (.elementwise f shape [lhs, rhs]) = some t)
    (hrank : t.shape.length = 2) (hsquare : coord t.shape 0 = coord t.shape 1) (hf : f.isCommutative = true)
    (htranspose : (Tensor.transpose [1, 0] (env lhs) = some (env rhs) ∧ (env lhs).shape.length = 2) ∨
      (Tensor.transpose [1, 0] (env rhs) = some (env lhs) ∧ (env rhs).shape.length = 2)) : t.Symmetric := by
  obtain ⟨-, h⟩ := ite_none_right_eq_some.mp h
  cases h
  have hget : ∀ {x y : Tensor R}, Tensor.transpose [1, 0] x = some y → x.shape.length = 2 → ∀ i j,
      Op.element y [i, j] = Op.element x [j, i] := by
    intro x y hxy hx i j
    have hne : x.shape ≠ [] := fun hnil => by simp [hnil] at hx
    rw [transpose_pair (shape_eq_pair hx)] at hxy
    cases hxy
    rw [Op.element, Op.element, if_neg (cons_ne_nil _ _), if_neg hne]
    rfl
  refine ⟨hsquare, fun i j _ => ?_⟩
  change f.compute [Op.element (env lhs) [i, j], Op.element (env rhs) [i, j]] =
    f.compute [Op.element (env lhs) [j, i], Op.element (env rhs) [j, i]]
  obtain ⟨hlhs, hlen⟩ | ⟨hrhs, hlen⟩ := htranspose
  · rw [hget hlhs hlen, hget hlhs hlen]
    exact f.comm hf _ _
  · rw [hget hrhs hlen, hget hrhs hlen]
    exact f.comm hf _ _

omit [DecidableEq R] in
theorem symmetric_of_dotVerdict {dims : DotDims} (henv : p.Computes env)
    (h : Tensor.dotGeneral dims (env lhs) (env rhs) = some (env v)) (hrank : (env v).shape.length = 2)
    (hverdict : p.dotVerdict dims lhs rhs ≠ .notGuaranteed)
    (hneeds : ∀ d ∈ (p.dotVerdict dims lhs rhs).needs, (env d).shape.length = 2 → (env d).Symmetric) :
    (env v).Symmetric := by
  rw [dotVerdict] at hverdict hneeds
  split at hverdict
  case h_2 => exact absurd rfl hverdict
  rename_i c c' hlb hrb hlc hrc
  simp only [hlb, hrb, hlc, hrc] at hneeds
  -- without batching the operands have four dimensions in all
  have hlayout := layout_of_dotGeneral h
  have hlengthX := hlayout.length_lhs
  have hlengthY := hlayout.length_rhs
  have hlen := hlayout.rank_eq
  simp only [hlb, hlc, length_nil, length_singleton] at hlengthX hlengthY hlen
  split at hverdict
  · rename_i hsame
    obtain ⟨rfl, rfl⟩ := hsame
    exact symmetric_dot_self hlb hrb hlc hrc h (by omega) rfl
  · rename_i hne
    rw [if_neg hne] at hneeds
    split at hverdict
    · rename_i hsame
      rw [if_pos hsame] at hneeds
      obtain ⟨rfl, hcc⟩ := hsame
      have hx : (env lhs).shape.length = 2 := by omega
      exact symmetric_dot_symmetric hlb hrb hlc hrc h hx (by omega) (hneeds lhs mem_cons_self hx)
    · split at hverdict
      · rename_i hlhs
        obtain ⟨htranspose, hy⟩ := transpose_of_transposeOf henv hlhs.1
        exact symmetric_transpose_dot h hlb hrb hlc hrc hy htranspose (by omega)
      · split at hverdict
        · rename_i hrhs
          obtain ⟨htranspose, hx⟩ := transpose_of_transposeOf henv hrhs.1
          exact symmetric_dot_transpose h hlb hrb hlc hrc hx htranspose (by omega)
        · exact absurd rfl hverdict

omit [CommRing R] [DecidableEq R] in
theorem square_of_localVerdict (h : p.localVerdict shape op ≠ .notGuaranteed) :
    shape.length = 2 ∧ coord shape 0 = coord shape 1 := by
  unfold localVerdict at h
  split at h
  · exact absurd rfl h
  · rename_i hlen
    split at h
    · exact absurd rfl h
    · rename_i hsize
      exact ⟨Decidable.not_not.mp hlen, Decidable.not_not.mp hsize⟩

omit [CommRing R] [DecidableEq R] in
theorem exists_of_isOfTransposes (h : p.isOfTransposes f operands = true) :
    ∃ lhs rhs, operands = [lhs, rhs] ∧ f.isCommutative = true ∧
      (p.transposeOf rhs = some lhs ∨ p.transposeOf lhs = some rhs) := by
  unfold isOfTransposes at h
  split at h
  · rename_i lhs rhs
    rw [Bool.and_eq_true, Bool.or_eq_true, decide_eq_true_iff, decide_eq_true_iff] at h
    exact ⟨lhs, rhs, rfl, h⟩
  · cases h

omit [DecidableEq R] in
theorem symmetric_of_localVerdict (henv : p.Computes env) (hop : p.getDefiningOp v = some op)
    (hverdict : p.localVerdict (p.shape v) op ≠ .notGuaranteed)
    (hneeds : ∀ d ∈ (p.localVerdict (p.shape v) op).needs, (env d).shape.length = 2 → (env d).Symmetric) :
    (env v).Symmetric := by
  obtain ⟨hrank, hsquare⟩ := square_of_localVerdict hverdict
  have heval := henv.eval_eq v op hop
  have hlocal : ¬(p.shape v).length ≠ 2 := fun hne => hne hrank
  have hlocal' : ¬coord (p.shape v) 0 ≠ coord (p.shape v) 1 := fun hne => hne hsquare
  cases op with
  | constant isComplex value | transpose permutation operand | other operands compute =>
    simp only [localVerdict, if_neg hlocal, if_neg hlocal'] at hverdict
    exact absurd rfl hverdict
  | syrk operands compute => exact henv.syrk v operands compute hop
  | broadcastInDim dims shape operand =>
    simp only [localVerdict, if_neg hlocal, if_neg hlocal'] at hverdict
    split at hverdict
    · rename_i hscalar
      obtain ⟨hscalar, rfl⟩ := hscalar
      obtain ⟨-, hval⟩ := ite_none_right_eq_some.mp heval
      have hshape := henv.shape_eq v
      rw [← hshape] at hsquare
      refine ⟨hsquare, fun i j _ => ?_⟩
      rw [← some.inj hval]
      simp
    · exact absurd rfl hverdict
  | elementwise f shape operands =>
    simp only [localVerdict, if_neg hlocal, if_neg hlocal'] at hverdict hneeds
    rw [← henv.shape_eq v] at hrank hsquare
    split at hverdict
    · rename_i hpair
      obtain ⟨lhs, rhs, rfl, hf, htranspose⟩ := exists_of_isOfTransposes hpair
      exact symmetric_of_transposes heval hrank hsquare hf
        (htranspose.imp (transpose_of_transposeOf henv) (transpose_of_transposeOf henv))
    · rename_i hpair
      rw [if_neg hpair] at hneeds
      exact symmetric_elementwise heval hrank hsquare fun d hd => hneeds d (by simpa [Verdict.needs] using hd)
  | dotGeneral dims lhs rhs =>
    simp only [localVerdict, if_neg hlocal, if_neg hlocal'] at hverdict hneeds
    exact symmetric_of_dotVerdict henv heval (henv.shape_eq v ▸ hrank) hverdict hneeds

omit [CommRing R] [DecidableEq R] in
theorem mem_operands_of_localVerdict {d : V} (h : d ∈ (p.localVerdict shape op).needs) : d ∈ op.operands := by
  unfold localVerdict at h
  split at h
  · cases h
  · split at h
    · cases h
    · cases op with
      | broadcastInDim dims shape operand =>
        dsimp only at h
        split at h <;> cases h
      | elementwise f shape operands =>
        dsimp only at h
        split at h
        · cases h
        · exact (mem_filter.mp h).1
      | dotGeneral dims lhs rhs =>
        dsimp only at h
        rw [dotVerdict] at h
        split at h
        · split at h
          · cases h
          · split at h
            · exact mem_cons.mpr (.inl (mem_singleton.mp (mem_filter.mp h).1))
            · split at h
              · cases h
              · split at h <;> cases h
        · cases h
      | _ => cases h

omit [CommRing R] in
theorem verdict_eq (hop : p.getDefiningOp v = some op)
    (hconstant : ¬∃ isComplex value, op = .constant isComplex value) :
    p.verdict v = p.localVerdict (p.shape v) op := by
  rw [verdict, hop]
  cases op with
  | constant isComplex value => exact absurd ⟨isComplex, value, rfl⟩ hconstant
  | _ => rfl

theorem symmetric_of_guaranteed (hok : p.SplatsSquare) (henv : p.Computes env) (h : p.graph.Guaranteed v)
    (hrank : (p.shape v).length = 2) : (env v).Symmetric := by
  induction v using p.acyclic.induction with
  | _ v ih =>
    obtain ⟨hverdict, hneeds⟩ := Graph.guaranteed_iff.mp h
    change p.verdict v ≠ .notGuaranteed at hverdict
    have hsymm : ∀ op, p.getDefiningOp v = some op → ∀ d ∈ op.operands, d ∈ (p.verdict v).needs →
        (env d).shape.length = 2 → (env d).Symmetric := by
      intro op hop d hd hmem hlen
      obtain ⟨o, ho, rfl⟩ := map_eq_some_iff.mp hop
      exact ih d ⟨o, ho, hd⟩ (hneeds d hmem) (henv.shape_eq d ▸ hlen)
    cases hop : p.getDefiningOp v with
    | none =>
      rw [verdict, hop] at hverdict
      exact absurd rfl hverdict
    | some op =>
      by_cases hconstant : ∃ isComplex value, op = .constant isComplex value
      · obtain ⟨isComplex, value, rfl⟩ := hconstant
        simp only [verdict, hop] at hverdict
        split at hverdict
        · rename_i hcheck
          have hval : value = env v := some.inj (henv.eval_eq v _ hop)
          have hlen : value.shape.length = 2 := by rw [hval, henv.shape_eq v, hrank]
          have hcomplex : isComplex = false := by
            rw [guaranteedConstant, Bool.and_eq_true, Bool.not_eq_true'] at hcheck
            exact hcheck.1
          subst hcomplex
          rw [← hval]
          exact symmetric_of_constant hcheck hlen (hok ⟨env, henv⟩ v value hop hlen)
        · exact absurd rfl hverdict
      · have hsymm := hsymm op hop
        rw [verdict_eq hop hconstant] at hverdict hsymm
        exact symmetric_of_localVerdict henv hop hverdict fun d hd => hsymm d (mem_operands_of_localVerdict hd) hd

theorem equalsTranspose_of_guaranteed (hok : p.SplatsSquare) (h : p.graph.Guaranteed v) : p.EqualsTranspose v := by
  intro hrank env henv
  have hlen : (env v).shape.length = 2 := by rw [henv.shape_eq v, hrank]
  exact (symmetric_iff_transpose hlen).mp (symmetric_of_guaranteed hok henv h hrank)

omit [CommRing R] in
theorem guaranteed_of_splat {value : Tensor R} (hop : p.getDefiningOp v = some (.constant false value))
    (hrank : value.shape.length = 2) (hsplat : isSplat value) : p.graph.Guaranteed v := by
  have hne : value.shape ≠ [] := fun hnil => by
    rw [hnil] at hrank
    cases hrank
  have hcheck : guaranteedConstant false value = true := by
    rw [guaranteedConstant, Bool.not_false, Bool.true_and, decide_eq_true ⟨hne, hsplat⟩, Bool.true_or]
  have hverdict : p.verdict v = .guaranteed := by simp only [verdict, hop, hcheck, if_true]
  refine Graph.guaranteed_iff.mpr ⟨?_, fun d hd => ?_⟩
  · change p.verdict v ≠ .notGuaranteed
    rw [hverdict]
    nofun
  · change d ∈ (p.verdict v).needs at hd
    rw [hverdict] at hd
    cases hd

end

/-- The queries end, and all matrices that they answer true for equal their transposes, if and only if the splats are
square. -/
theorem equalsTranspose_iff [Fintype V] (p : Program V O R) :
    (∃ bound, ∀ fuel, bound ≤ fuel → ∀ a, p.Known fuel a → ∀ v, ∃ guaranteed' a',
      p.guaranteed fuel a v = some (guaranteed', a') ∧ (guaranteed' = true → p.EqualsTranspose v)) ↔
    p.SplatsSquare := by
  constructor
  · intro ⟨bound, hbound⟩ ⟨env, henv⟩ v value hop hrank hsplat
    obtain ⟨guaranteed', a', hquery, hsound⟩ := hbound (max bound p.bound) (le_max_left _ _) _ .start v
    have hstart : p.graph.meaning.Correct ⟨fun _ => none, fun _ => none⟩ := ⟨nofun, nofun⟩
    obtain ⟨guaranteed'', a'', hquery', hiff, -⟩ := guaranteed_spec (le_max_right bound p.bound) hstart v
    rw [hquery] at hquery'
    obtain ⟨rfl, -⟩ := Prod.mk.inj (some.inj hquery')
    have hvalue : value = env v := some.inj (henv.eval_eq v _ hop)
    have hshape : (p.shape v).length = 2 := by rw [← henv.shape_eq v, ← hvalue, hrank]
    have htranspose := hsound (hiff.mpr (guaranteed_of_splat hop hrank hsplat)) hshape env henv
    rw [← hvalue, ← symmetric_iff_transpose hrank] at htranspose
    exact htranspose.size_eq
  · intro hok
    refine ⟨p.bound, fun fuel hfuel a ha v => ?_⟩
    obtain ⟨guaranteed', a', hquery, hiff, -⟩ := guaranteed_spec hfuel (ha.correct hfuel) v
    exact ⟨guaranteed', a', hquery, fun htrue => equalsTranspose_of_guaranteed hok (hiff.mp htrue)⟩

/-- A matrix of zeros with two rows and three columns. -/
def zeros : Program (Fin 1) Unit Int where
  definingOp _ := some ()
  resultNumber _ := 0
  op _ := .constant false (splat [2, 3] 0)
  shape _ := [2, 3]
  acyclic := by
    refine Subrelation.wf (r := (· < ·)) (fun {d v} h => ?_) wellFounded_lt
    obtain ⟨o, -, hd⟩ := h
    cases hd

theorem zeros_not_equalsTranspose : ¬∀ fuel v a',
    zeros.guaranteed fuel ⟨fun _ => none, fun _ => none⟩ v = some (true, a') → zeros.EqualsTranspose v := by
  intro h
  have hrun : zeros.Computes fun _ => splat [2, 3] 0 :=
    ⟨fun _ => rfl, fun _ _ hop => by obtain rfl := some.inj hop; rfl, nofun⟩
  obtain ⟨t, ht, hsame⟩ := h 5 0 _ rfl rfl _ hrun
  rw [transpose_pair rfl] at ht
  cases ht
  exact absurd hsame.shape_eq (by decide)

end Program

end EnzymeJax.SymmetricResultAnalysis
