import EnzymeJax.Raising.Affine
import Mathlib.Data.List.Sort

/-!
# Simplified affine expressions

`recreateExpr` factors out common divisors of sums, folds differences into remainders, and drops or divides summands
of a dividend that are multiples of the divisor. Of the simplifying constructors only their values are known. The
additions call each other until nothing is to be factored out, so they are bounded by a depth.
-/

namespace EnzymeJax

deriving instance DecidableEq for AffineExpr

namespace SimplifyAffineExprs

open AffineExpr List Option

/-- The operations on affine expressions that are called, and the sorting of a list. -/
structure Mlir where
  add : AffineExpr → AffineExpr → AffineExpr
  mul : AffineExpr → AffineExpr → AffineExpr
  mod : AffineExpr → AffineExpr → AffineExpr
  floorDiv : AffineExpr → AffineExpr → AffineExpr
  isMultipleOf : AffineExpr → Int → Bool
  getLargestKnownDivisor : AffineExpr → Int
  sort : (AffineExpr → AffineExpr → Bool) → List AffineExpr → List AffineExpr

/-- The operations keep the value. A quotient does where the divisor is positive or divides. -/
structure Mlir.Sound (m : Mlir) (dims syms : Nat → Int) : Prop where
  eval_add : ∀ a b, (m.add a b).eval dims syms = a.eval dims syms + b.eval dims syms
  eval_mul : ∀ a b, (m.mul a b).eval dims syms = a.eval dims syms * b.eval dims syms
  eval_mod : ∀ a b, 0 < b.eval dims syms → (m.mod a b).eval dims syms = a.eval dims syms % b.eval dims syms
  eval_floorDiv : ∀ a b, 0 < b.eval dims syms → (m.floorDiv a b).eval dims syms = a.eval dims syms / b.eval dims syms
  eval_floorDiv_of_dvd : ∀ a b, b.eval dims syms ≠ 0 → b.eval dims syms ∣ a.eval dims syms →
    (m.floorDiv a b).eval dims syms = a.eval dims syms / b.eval dims syms
  dvd_of_isMultipleOf : ∀ a factor, m.isMultipleOf a factor = true → factor ∣ a.eval dims syms
  getLargestKnownDivisor_dvd : ∀ a, m.getLargestKnownDivisor a ∣ a.eval dims syms
  sort_perm : ∀ cmp l, (m.sort cmp l).Perm l

variable (m : Mlir)

def decomposeMulByConst : AffineExpr → AffineExpr × Int
  | bin .mul lhs (const c) => (lhs, c)
  | term => (term, 1)

/-- Fold `c * e + (-c * k) * (e floordiv k)` to `(e mod k) * c`. -/
def foldImplicitMod (a b : AffineExpr) : Option AffineExpr :=
  let (e, c) := decomposeMulByConst a
  let (divBody, divCoeff) := decomposeMulByConst b
  match divBody with
  | bin .floorDiv lhs (const k) =>
    if 2 ≤ k ∧ lhs = e ∧ divCoeff = -c * k then some (m.mul (m.mod e (const k)) (const c)) else none
  | _ => none

def tryFoldImplicitMod (a b : AffineExpr) : Option AffineExpr :=
  match foldImplicitMod m a b with
  | some folded => some folded
  | none => foldImplicitMod m b a

def isNegativeConst : AffineExpr → Bool
  | const c => decide (c < 0)
  | _ => false

def hasNegativeConst : AffineExpr → Bool
  | bin _ lhs rhs => isNegativeConst lhs || isNegativeConst rhs
  | _ => false

/-- What to factor out of a sum, in the order in which it is tried. -/
def factors (lhs rhs : AffineExpr) (allownegate : Bool) : List Int :=
  let gcd : Int := Int.gcd (m.getLargestKnownDivisor lhs) (m.getLargestKnownDivisor rhs)
  let negate := hasNegativeConst lhs || hasNegativeConst rhs
  (if gcd ≠ 1 then [gcd] else []) ++ if negate && allownegate then [-gcd] else []

def isSumOf (lhs rhs : AffineExpr) : AffineExpr → Bool
  | bin .add a b => decide (a = lhs ∧ b = rhs ∨ b = lhs ∧ a = rhs)
  | _ => false

def isBinaryOf (lhs rhs : AffineExpr) : AffineExpr → Bool
  | bin _ a b => decide (a = lhs ∧ b = rhs ∨ b = lhs ∧ a = rhs)
  | _ => false

/-- Whether the first goes before the second, and the second before the first. -/
def affineCmpBoth : AffineExpr → AffineExpr → Bool × Bool
  | const a, const b => (decide (a < b), decide (b < a))
  | const _, _ => (true, false)
  | _, const _ => (false, true)
  | sym a, sym b => (decide (a < b), decide (b < a))
  | sym _, _ => (true, false)
  | _, sym _ => (false, true)
  | dim a, dim b => (decide (a < b), decide (b < a))
  | dim _, _ => (true, false)
  | _, dim _ => (false, true)
  | bin _ a b, bin _ c d =>
    let lhs := affineCmpBoth a c
    let rhs := affineCmpBoth b d
    (lhs.1 || !lhs.2 && rhs.1, lhs.2 || !lhs.1 && rhs.2)

/-- Constants go before symbols, these before dimensions and these before operations, which are ordered by
their operands. -/
def affineCmp (lhs rhs : AffineExpr) : Bool := (affineCmpBoth lhs rhs).1

/-- The summands. They are taken from the end of a stack, so those of a right operand come first. -/
def getSumOperands : AffineExpr → List AffineExpr
  | bin .add lhs rhs => getSumOperands rhs ++ getSumOperands lhs
  | e => [e]

def sortSum (e : AffineExpr) : AffineExpr :=
  match e with
  | bin _ _ _ =>
    match m.sort affineCmp (getSumOperands e) with
    | [] => e
    | e :: es => es.foldl m.add e
  | e => e

section

-- A sum of two expressions, if the recursion ends within its depth.
variable (commonAddWithMul : AffineExpr → AffineExpr → Bool → Option AffineExpr)

/-- The summands at `i` and `j`, if their sum is not an operation on the two, and then all the others. -/
def fuse (base0 base1 : List AffineExpr) (i j : Nat) : Option (Option AffineExpr) := do
  let x ← base0[i]?
  let y ← base1[j]?
  let fuse ← commonAddWithMul x y true
  if isBinaryOf x y fuse then
    return none
  let fuse ← (base0.eraseIdx i).foldlM (fun fuse e => commonAddWithMul fuse e true) fuse
  let fuse ← (base1.eraseIdx j).foldlM (fun fuse e => commonAddWithMul fuse e true) fuse
  return some fuse

def fuseFirst (base0 base1 : List AffineExpr) : List (Nat × Nat) → Option (Option AffineExpr)
  | [] => some none
  | (i, j) :: pairs => do
    match ← fuse commonAddWithMul base0 base1 i j with
    | some sum => return some sum
    | none => fuseFirst base0 base1 pairs

def internalAddWith (lhs rhs : AffineExpr) (allownegate : Bool) : Option AffineExpr :=
  if (getSumOperands lhs).length = 1 ∧ (getSumOperands rhs).length = 1 then
    commonAddWithMul lhs rhs allownegate
  else do
    let base0 := m.sort affineCmp (getSumOperands lhs)
    let base1 := m.sort affineCmp (getSumOperands rhs)
    match ← fuseFirst commonAddWithMul base0 base1
      ((List.range base0.length).product (List.range base1.length)) with
    | some sum => return sum
    | none => commonAddWithMul lhs rhs allownegate

def divideBy (val : Int) (e : AffineExpr) : AffineExpr :=
  if val = -1 then m.mul e (const val) else m.floorDiv e (const val)

/-- The sum with one of the values factored out, if this makes it another one. -/
def factorOut (lhs rhs : AffineExpr) : List Int → Option AffineExpr
  | [] => some (m.add lhs rhs)
  | val :: vals => do
    let lhsG := divideBy m val lhs
    let rhsG := divideBy m val rhs
    let add ← internalAddWith m commonAddWithMul lhsG rhsG (decide (val ≠ -1))
    if isSumOf lhsG rhsG add then
      factorOut lhs rhs vals
    else
      return m.mul add (const val)

end

def commonAddWithMul : Nat → AffineExpr → AffineExpr → Bool → Option AffineExpr
  | 0, _, _, _ => none
  | depth + 1, lhs, rhs, allownegate =>
    match tryFoldImplicitMod m lhs rhs with
    | some folded => some folded
    | none => factorOut m (commonAddWithMul depth) lhs rhs (factors m lhs rhs allownegate)

def internalAdd (depth : Nat) (lhs rhs : AffineExpr) : Option AffineExpr :=
  internalAddWith m (commonAddWithMul m depth) lhs rhs true

def addAll (es : List AffineExpr) : AffineExpr := es.foldl m.add (const 0)

/-- The remainder by the sorted `rhs`. -/
def recreateMod (lhs rhs : AffineExpr) : AffineExpr :=
  let toMod :=
    match rhs with
    | const c => (getSumOperands lhs).filter fun e => !m.isMultipleOf e c
    | _ => [sortSum m lhs]
  m.mod (addAll m (m.sort affineCmp toMod)) rhs

/-- A summand of a dividend: what is yet to be divided by `c`, and what is divided already. -/
def divideSummand (c : Int) (e : AffineExpr) : List AffineExpr × List AffineExpr :=
  if m.isMultipleOf e c then ([], [m.floorDiv e (const c)])
  else
    match e with
    | const value =>
      if 0 < value ∧ 0 < c ∧ c < value then ([m.mod e (const c)], [m.floorDiv e (const c)])
      else ([e], [])
    | _ => ([e], [])

/-- The quotient by the sorted `rhs`. -/
def recreateFloorDiv (lhs rhs : AffineExpr) : AffineExpr :=
  let summands :=
    match rhs with
    | const c => (getSumOperands lhs).map (divideSummand m c)
    | _ => [([sortSum m lhs], [])]
  let toDivide := summands.flatMap Prod.fst
  let alreadyDivided := summands.flatMap Prod.snd
  let out := m.floorDiv (addAll m (m.sort affineCmp toDivide)) rhs
  addAll m (m.sort affineCmp (alreadyDivided ++ [out]))

def recreateExpr (depth : Nat) : AffineExpr → Option AffineExpr
  | bin kind lhs rhs => do
    let lhs' ← recreateExpr depth lhs
    let rhs' ← recreateExpr depth rhs
    match kind with
    | .add => internalAdd m depth lhs' rhs'
    | .mul => return m.mul (sortSum m lhs') (sortSum m rhs')
    | .mod => return recreateMod m lhs' (sortSum m rhs')
    | .floorDiv => return recreateFloorDiv m lhs' (sortSum m rhs')
    | .ceilDiv => return bin .ceilDiv lhs rhs
  | e => some e

def recreateExprs (depth : Nat) (exprs : List AffineExpr) : Option (List AffineExpr) :=
  exprs.mapM fun e => (recreateExpr m depth e).map (sortSum m)

/-! ### Sums of lists -/

variable {es base0 base1 : List AffineExpr} {e sum lhs rhs result : AffineExpr} {i j depth : Nat}
  {pairs : List (Nat × Nat)} {vals : List Int}

section

variable {m : Mlir} {dims syms : Nat → Int}

/-- The value of a list of summands. -/
def evalSum (dims syms : Nat → Int) (es : List AffineExpr) : Int := (es.map (eval dims syms)).sum

@[simp] theorem evalSum_nil : evalSum dims syms [] = 0 := rfl

@[simp] theorem evalSum_cons (e : AffineExpr) (es : List AffineExpr) :
    evalSum dims syms (e :: es) = e.eval dims syms + evalSum dims syms es := rfl

@[simp] theorem evalSum_append (es es' : List AffineExpr) :
    evalSum dims syms (es ++ es') = evalSum dims syms es + evalSum dims syms es' := by
  rw [evalSum, map_append, sum_append]
  rfl

theorem evalSum_perm {es' : List AffineExpr} (h : es.Perm es') :
    evalSum dims syms es = evalSum dims syms es' := (h.map _).sum_eq

theorem evalSum_getSumOperands (e : AffineExpr) :
    evalSum dims syms (getSumOperands e) = e.eval dims syms := by
  induction e with
  | const | dim | sym => exact Int.add_zero _
  | bin kind lhs rhs ihl ihr =>
    cases kind with
    | add =>
      rw [getSumOperands, evalSum_append, ihl, ihr, Int.add_comm]
      rfl
    | mul | mod | floorDiv | ceilDiv => exact Int.add_zero _

theorem Mlir.Sound.eval_foldl_add (hm : m.Sound dims syms) (es : List AffineExpr) (e : AffineExpr) :
    (es.foldl m.add e).eval dims syms = e.eval dims syms + evalSum dims syms es := by
  induction es generalizing e with
  | nil => exact (Int.add_zero _).symm
  | cons e' es ih => rw [foldl_cons, ih, hm.eval_add, evalSum_cons, Int.add_assoc]

theorem Mlir.Sound.eval_addAll (hm : m.Sound dims syms) (es : List AffineExpr) :
    (addAll m (m.sort affineCmp es)).eval dims syms = evalSum dims syms es := by
  rw [addAll, hm.eval_foldl_add, evalSum_perm (hm.sort_perm _ _)]
  exact Int.zero_add _

theorem eval_sortSum (hm : m.Sound dims syms) (e : AffineExpr) : (sortSum m e).eval dims syms = e.eval dims syms := by
  cases e with
  | const | dim | sym => rfl
  | bin kind lhs rhs =>
    have hperm := hm.sort_perm affineCmp (getSumOperands (bin kind lhs rhs))
    rw [sortSum]
    split
    · rfl
    · rename_i e es hsort
      rw [hsort] at hperm
      rw [hm.eval_foldl_add, ← evalSum_cons, evalSum_perm hperm, evalSum_getSumOperands]

end

/-! ### Additions -/

section

variable {m : Mlir} {dims syms : Nat → Int} {common common' : AffineExpr → AffineExpr → Bool → Option AffineExpr}

theorem eval_decomposeMulByConst (e : AffineExpr) :
    (decomposeMulByConst e).1.eval dims syms * (decomposeMulByConst e).2 = e.eval dims syms := by
  unfold decomposeMulByConst
  split
  · rfl
  · exact Int.mul_one _

theorem eval_foldImplicitMod (hm : m.Sound dims syms) {a b folded : AffineExpr}
    (h : foldImplicitMod m a b = some folded) : folded.eval dims syms = a.eval dims syms + b.eval dims syms := by
  rw [← eval_decomposeMulByConst a, ← eval_decomposeMulByConst b]
  rw [foldImplicitMod] at h
  generalize decomposeMulByConst a = body at h ⊢
  generalize decomposeMulByConst b = div at h ⊢
  obtain ⟨e, c⟩ := body
  obtain ⟨divBody, divCoeff⟩ := div
  dsimp only at h ⊢
  split at h
  · rename_i lhs k
    split at h
    · rename_i hfold
      obtain ⟨hk, rfl, rfl⟩ := hfold
      cases h
      have hpos : 0 < (const k).eval dims syms := by
        change 0 < k
        omega
      rw [hm.eval_mul, hm.eval_mod _ _ hpos]
      change lhs.eval dims syms % k * c = lhs.eval dims syms * c + lhs.eval dims syms / k * (-c * k)
      rw [Int.emod_def]
      ring
    · cases h
  · cases h

theorem eval_tryFoldImplicitMod (hm : m.Sound dims syms) {a b folded : AffineExpr}
    (h : tryFoldImplicitMod m a b = some folded) : folded.eval dims syms = a.eval dims syms + b.eval dims syms := by
  rw [tryFoldImplicitMod] at h
  split at h
  · rename_i hfold
    cases h
    exact eval_foldImplicitMod hm hfold
  · rw [eval_foldImplicitMod hm h, Int.add_comm]

/-- What a function returns for two expressions has the value of their sum. -/
def Adds (dims syms : Nat → Int) (common : AffineExpr → AffineExpr → Bool → Option AffineExpr) : Prop :=
  ∀ lhs rhs allownegate sum, common lhs rhs allownegate = some sum →
    sum.eval dims syms = lhs.eval dims syms + rhs.eval dims syms

theorem Adds.eval_foldlM (hcommon : Adds dims syms common)
    (h : es.foldlM (fun fuse e => common fuse e true) e = some sum) :
    sum.eval dims syms = e.eval dims syms + evalSum dims syms es := by
  induction es generalizing e with
  | nil =>
    cases h
    exact (Int.add_zero _).symm
  | cons e' es ih =>
    obtain ⟨fuse, hfuse, hrest⟩ := bind_eq_some_iff.mp (foldlM_cons.symm.trans h)
    rw [ih hrest, hcommon _ _ _ _ hfuse, evalSum_cons, Int.add_assoc]

theorem evalSum_eraseIdx (h : es[i]? = some e) :
    e.eval dims syms + evalSum dims syms (es.eraseIdx i) = evalSum dims syms es := by
  obtain ⟨hi, rfl⟩ := List.getElem?_eq_some_iff.mp h
  rw [← evalSum_cons, evalSum_perm (getElem_cons_eraseIdx_perm hi)]

theorem Adds.eval_fuse (hcommon : Adds dims syms common) (h : fuse common base0 base1 i j = some (some sum)) :
    sum.eval dims syms = evalSum dims syms base0 + evalSum dims syms base1 := by
  obtain ⟨x, hx, h⟩ := bind_eq_some_iff.mp h
  obtain ⟨y, hy, h⟩ := bind_eq_some_iff.mp h
  obtain ⟨e, he, h⟩ := bind_eq_some_iff.mp h
  split at h
  · cases h
  · obtain ⟨e0, he0, h⟩ := bind_eq_some_iff.mp h
    obtain ⟨e1, he1, h⟩ := bind_eq_some_iff.mp h
    cases some.inj h
    rw [hcommon.eval_foldlM he1, hcommon.eval_foldlM he0, hcommon _ _ _ _ he, ← evalSum_eraseIdx hx,
      ← evalSum_eraseIdx hy]
    ring

theorem Adds.eval_fuseFirst (hcommon : Adds dims syms common)
    (h : fuseFirst common base0 base1 pairs = some (some sum)) :
    sum.eval dims syms = evalSum dims syms base0 + evalSum dims syms base1 := by
  induction pairs with
  | nil => cases h
  | cons pair pairs ih =>
    obtain ⟨i, j⟩ := pair
    obtain ⟨fused, hfuse, h⟩ := bind_eq_some_iff.mp h
    cases fused with
    | some sum' =>
      cases some.inj h
      exact hcommon.eval_fuse hfuse
    | none => exact ih h

section

variable (hm : m.Sound dims syms)

include hm

theorem Adds.internalAddWith (hcommon : Adds dims syms common) :
    Adds dims syms (internalAddWith m common) := by
  intro lhs rhs allownegate sum h
  rw [SimplifyAffineExprs.internalAddWith] at h
  split at h
  · exact hcommon _ _ _ _ h
  · obtain ⟨first, hfirst, h⟩ := bind_eq_some_iff.mp h
    cases first with
    | some sum' =>
      cases h
      rw [hcommon.eval_fuseFirst hfirst, evalSum_perm (hm.sort_perm _ _), evalSum_perm (hm.sort_perm _ _),
        evalSum_getSumOperands, evalSum_getSumOperands]
    | none => exact hcommon _ _ _ _ h

theorem eval_divideBy {val : Int} (hdvd : val ∣ e.eval dims syms) :
    (divideBy m val e).eval dims syms * val = e.eval dims syms := by
  rw [divideBy]
  split
  · rename_i hval
    subst hval
    rw [hm.eval_mul]
    change e.eval dims syms * -1 * -1 = e.eval dims syms
    ring
  · by_cases hzero : val = 0
    · -- Both are zero, and the quotient may be anything.
      subst hzero
      rw [Int.mul_zero, Int.zero_dvd.mp hdvd]
    · rw [hm.eval_floorDiv_of_dvd e (const val) hzero hdvd]
      exact Int.ediv_mul_cancel hdvd

theorem dvd_of_mem_factors {allownegate : Bool} {val : Int} (h : val ∈ factors m lhs rhs allownegate) :
    val ∣ lhs.eval dims syms ∧ val ∣ rhs.eval dims syms := by
  have hgcd : val ∣ Int.gcd (m.getLargestKnownDivisor lhs) (m.getLargestKnownDivisor rhs) := by
    rw [factors] at h
    rcases mem_append.mp h with h | h
    · split at h
      · rw [mem_singleton.mp h]
      · cases h
    · split at h
      · rw [mem_singleton.mp h]
        exact Int.neg_dvd.mpr (Int.dvd_refl _)
      · cases h
  exact ⟨(hgcd.trans (Int.gcd_dvd_left _ _)).trans (hm.getLargestKnownDivisor_dvd lhs),
    (hgcd.trans (Int.gcd_dvd_right _ _)).trans (hm.getLargestKnownDivisor_dvd rhs)⟩

theorem Adds.eval_factorOut (hcommon : Adds dims syms common)
    (hvals : ∀ val ∈ vals, val ∣ lhs.eval dims syms ∧ val ∣ rhs.eval dims syms)
    (h : factorOut m common lhs rhs vals = some sum) :
    sum.eval dims syms = lhs.eval dims syms + rhs.eval dims syms := by
  induction vals with
  | nil =>
    cases h
    exact hm.eval_add lhs rhs
  | cons val vals ih =>
    obtain ⟨⟨hlhs, hrhs⟩, hvals⟩ := forall_mem_cons.mp hvals
    obtain ⟨add, hadd, h⟩ := bind_eq_some_iff.mp h
    split at h
    · exact ih hvals h
    · cases h
      rw [hm.eval_mul, hcommon.internalAddWith hm _ _ _ _ hadd]
      change (_ + _) * val = _
      rw [Int.add_mul, eval_divideBy hm hlhs, eval_divideBy hm hrhs]

theorem adds_commonAddWithMul (depth : Nat) : Adds dims syms (commonAddWithMul m depth) := by
  induction depth with
  | zero =>
    intro lhs rhs allownegate sum h
    cases h
  | succ depth ih =>
    intro lhs rhs allownegate sum h
    rw [commonAddWithMul] at h
    split at h
    · rename_i hfold
      cases h
      exact eval_tryFoldImplicitMod hm hfold
    · exact ih.eval_factorOut hm (fun val hval => dvd_of_mem_factors hm hval) h

theorem eval_internalAdd (h : internalAdd m depth lhs rhs = some sum) :
    sum.eval dims syms = lhs.eval dims syms + rhs.eval dims syms :=
  (adds_commonAddWithMul hm depth).internalAddWith hm _ _ _ _ h

end

end

/-! ### Remainders and quotients -/

section

variable {m : Mlir} {dims syms : Nat → Int}

section

variable (hm : m.Sound dims syms)

include hm

theorem emod_evalSum_filter (c : Int) (es : List AffineExpr) :
    evalSum dims syms (es.filter fun e => !m.isMultipleOf e c) % c = evalSum dims syms es % c := by
  induction es with
  | nil => rfl
  | cons e es ih =>
    rw [evalSum_cons]
    cases hmul : m.isMultipleOf e c with
    | true =>
      rw [filter_cons_of_neg (by rw [hmul]; exact Bool.false_ne_true), ih]
      rw [Int.add_emod, Int.emod_eq_zero_of_dvd (hm.dvd_of_isMultipleOf _ _ hmul), Int.zero_add, Int.emod_emod]
    | false =>
      rw [filter_cons_of_pos (by rw [hmul]; rfl), evalSum_cons, Int.add_emod, ih, ← Int.add_emod]

theorem eval_recreateMod (hpos : 0 < rhs.eval dims syms) :
    (recreateMod m lhs rhs).eval dims syms = lhs.eval dims syms % rhs.eval dims syms := by
  unfold recreateMod
  rw [hm.eval_mod _ _ hpos, hm.eval_addAll]
  have hsorted : evalSum dims syms [sortSum m lhs] = lhs.eval dims syms := by
    rw [evalSum_cons, eval_sortSum hm, evalSum_nil, Int.add_zero]
  cases rhs with
  | const c =>
    rw [← evalSum_getSumOperands lhs]
    exact emod_evalSum_filter hm c _
  | dim | sym | bin => rw [hsorted]

theorem evalSum_divideSummand {c : Int} (hpos : 0 < c) (e : AffineExpr) :
    evalSum dims syms (divideSummand m c e).1 + evalSum dims syms (divideSummand m c e).2 * c = e.eval dims syms := by
  have hquot := hm.eval_floorDiv e (const c) hpos
  have hrem := hm.eval_mod e (const c) hpos
  have hwhole : evalSum dims syms [e] + evalSum dims syms [] * c = e.eval dims syms := by
    rw [evalSum_cons, evalSum_nil]
    ring
  change _ = _ / c at hquot
  change _ = _ % c at hrem
  unfold divideSummand
  split
  · rename_i hmul
    rw [evalSum_cons, hquot, evalSum_nil, Int.add_zero, Int.ediv_mul_cancel (hm.dvd_of_isMultipleOf _ _ hmul)]
    exact Int.zero_add _
  · split
    · split
      · rw [evalSum_cons, evalSum_cons, hquot, hrem, evalSum_nil, Int.add_zero, Int.add_zero,
          Int.mul_comm, Int.emod_add_mul_ediv]
      · exact hwhole
    · exact hwhole

theorem evalSum_summands {c : Int} (hpos : 0 < c) (es : List AffineExpr) :
    evalSum dims syms ((es.map (divideSummand m c)).flatMap Prod.fst) +
      evalSum dims syms ((es.map (divideSummand m c)).flatMap Prod.snd) * c = evalSum dims syms es := by
  induction es with
  | nil => exact (Int.zero_add _).trans (Int.zero_mul c)
  | cons e es ih =>
    rw [map_cons, flatMap_cons, flatMap_cons, evalSum_append, evalSum_append, evalSum_cons,
      ← ih, ← evalSum_divideSummand hm hpos e]
    ring

theorem eval_recreateFloorDiv (hpos : 0 < rhs.eval dims syms) :
    (recreateFloorDiv m lhs rhs).eval dims syms = lhs.eval dims syms / rhs.eval dims syms := by
  unfold recreateFloorDiv
  rw [hm.eval_addAll, evalSum_append, evalSum_cons, hm.eval_floorDiv _ _ hpos,
    hm.eval_addAll, evalSum_nil, Int.add_zero]
  have hsorted : evalSum dims syms [sortSum m lhs] = lhs.eval dims syms := by
    rw [evalSum_cons, eval_sortSum hm, evalSum_nil, Int.add_zero]
  cases rhs with
  | const c =>
    change 0 < c at hpos
    have hsum := evalSum_summands hm hpos (getSumOperands lhs)
    rw [evalSum_getSumOperands] at hsum
    change _ + _ / c = lhs.eval dims syms / c
    rw [← hsum, Int.add_mul_ediv_right _ _ hpos.ne', Int.add_comm]
  | dim | sym | bin =>
    refine Eq.trans ?_ (congrArg (· / _) hsorted)
    exact Int.zero_add _

end

end

/-! ### Recreated expressions -/

section

variable {m : Mlir} {dims syms : Nat → Int}

def PositiveDivisors (dims syms : Nat → Int) : AffineExpr → Prop
  | bin kind lhs rhs => PositiveDivisors dims syms lhs ∧ PositiveDivisors dims syms rhs ∧
    (kind.isDivision → 0 < rhs.eval dims syms)
  | _ => True

theorem eval_of_recreateExpr (hm : m.Sound dims syms) (hpos : PositiveDivisors dims syms e)
    (h : recreateExpr m depth e = some result) : result.eval dims syms = e.eval dims syms := by
  induction e generalizing result with
  | const | dim | sym =>
    cases h
    rfl
  | bin kind lhs rhs ihl ihr =>
    obtain ⟨hl, hr, hdivisor⟩ := hpos
    obtain ⟨lhs', hlhs, h⟩ := bind_eq_some_iff.mp h
    obtain ⟨rhs', hrhs, h⟩ := bind_eq_some_iff.mp h
    have hevalL := ihl hl hlhs
    have hevalR := ihr hr hrhs
    cases kind with
    | add =>
      rw [eval_internalAdd hm h, hevalL, hevalR]
      rfl
    | mul =>
      cases h
      rw [hm.eval_mul, eval_sortSum hm, eval_sortSum hm, hevalL, hevalR]
      rfl
    | mod =>
      cases h
      have hsorted : (sortSum m rhs').eval dims syms = rhs.eval dims syms :=
        (eval_sortSum hm rhs').trans hevalR
      rw [eval_recreateMod hm (hsorted ▸ hdivisor rfl), hsorted, hevalL]
      rfl
    | floorDiv =>
      cases h
      have hsorted : (sortSum m rhs').eval dims syms = rhs.eval dims syms :=
        (eval_sortSum hm rhs').trans hevalR
      rw [eval_recreateFloorDiv hm (hsorted ▸ hdivisor rfl), hsorted, hevalL]
      rfl
    | ceilDiv =>
      cases h
      rfl

end

/-! ### The depth -/

section

variable {m : Mlir} {common common' : AffineExpr → AffineExpr → Bool → Option AffineExpr}

/-- What one function returns, the other one returns as well. -/
def Extends (common common' : AffineExpr → AffineExpr → Bool → Option AffineExpr) : Prop :=
  ∀ lhs rhs allownegate sum, common lhs rhs allownegate = some sum → common' lhs rhs allownegate = some sum

namespace Extends

section

variable (hext : Extends common common')

include hext

theorem foldlM (h : es.foldlM (fun fuse e => common fuse e true) e = some sum) :
    es.foldlM (fun fuse e => common' fuse e true) e = some sum := by
  induction es generalizing e with
  | nil => exact h
  | cons e' es ih =>
    obtain ⟨fuse, hfuse, hrest⟩ := bind_eq_some_iff.mp (foldlM_cons.symm.trans h)
    exact foldlM_cons.trans (bind_eq_some_iff.mpr ⟨fuse, hext _ _ _ _ hfuse, ih hrest⟩)

theorem fuse {sum : Option AffineExpr} (h : SimplifyAffineExprs.fuse common base0 base1 i j = some sum) :
    SimplifyAffineExprs.fuse common' base0 base1 i j = some sum := by
  obtain ⟨x, hx, h⟩ := bind_eq_some_iff.mp h
  obtain ⟨y, hy, h⟩ := bind_eq_some_iff.mp h
  obtain ⟨e, he, h⟩ := bind_eq_some_iff.mp h
  refine bind_eq_some_iff.mpr ⟨x, hx, bind_eq_some_iff.mpr ⟨y, hy, bind_eq_some_iff.mpr ⟨e, hext _ _ _ _ he, ?_⟩⟩⟩
  split at h
  · rename_i hbinary
    rw [if_pos hbinary]
    exact h
  · rename_i hbinary
    obtain ⟨e0, he0, h⟩ := bind_eq_some_iff.mp h
    obtain ⟨e1, he1, h⟩ := bind_eq_some_iff.mp h
    rw [if_neg hbinary]
    exact bind_eq_some_iff.mpr ⟨e0, hext.foldlM he0, bind_eq_some_iff.mpr ⟨e1, hext.foldlM he1, h⟩⟩

theorem fuseFirst {sum : Option AffineExpr} (h : SimplifyAffineExprs.fuseFirst common base0 base1 pairs = some sum) :
    SimplifyAffineExprs.fuseFirst common' base0 base1 pairs = some sum := by
  induction pairs with
  | nil => exact h
  | cons pair pairs ih =>
    obtain ⟨i, j⟩ := pair
    obtain ⟨fused, hfuse, h⟩ := bind_eq_some_iff.mp h
    refine bind_eq_some_iff.mpr ⟨fused, hext.fuse hfuse, ?_⟩
    cases fused with
    | some sum' => exact h
    | none => exact ih h

theorem internalAddWith : Extends (internalAddWith m common) (internalAddWith m common') := by
  intro lhs rhs allownegate sum h
  rw [SimplifyAffineExprs.internalAddWith] at h ⊢
  split at h
  · rename_i hsingle
    rw [if_pos hsingle]
    exact hext _ _ _ _ h
  · rename_i hsingle
    obtain ⟨first, hfirst, h⟩ := bind_eq_some_iff.mp h
    rw [if_neg hsingle]
    refine bind_eq_some_iff.mpr ⟨first, hext.fuseFirst hfirst, ?_⟩
    cases first with
    | some sum' => exact h
    | none => exact hext _ _ _ _ h

theorem factorOut (h : factorOut m common lhs rhs vals = some sum) :
    SimplifyAffineExprs.factorOut m common' lhs rhs vals = some sum := by
  induction vals with
  | nil => exact h
  | cons val vals ih =>
    obtain ⟨add, hadd, h⟩ := bind_eq_some_iff.mp h
    refine bind_eq_some_iff.mpr ⟨add, hext.internalAddWith _ _ _ _ hadd, ?_⟩
    split at h
    · rename_i hsum
      rw [if_pos hsum]
      exact ih h
    · rename_i hsum
      rw [if_neg hsum]
      exact h

end

end Extends

theorem extends_commonAddWithMul (depth : Nat) :
    Extends (commonAddWithMul m depth) (commonAddWithMul m (depth + 1)) := by
  induction depth with
  | zero =>
    intro lhs rhs allownegate sum h
    cases h
  | succ depth ih =>
    intro lhs rhs allownegate sum h
    rw [commonAddWithMul] at h ⊢
    split at h
    · exact h
    · exact ih.factorOut h

theorem recreateExpr_succ (h : recreateExpr m depth e = some result) : recreateExpr m (depth + 1) e = some result := by
  induction e generalizing result with
  | const | dim | sym => exact h
  | bin kind lhs rhs ihl ihr =>
    obtain ⟨lhs', hlhs, h⟩ := bind_eq_some_iff.mp h
    obtain ⟨rhs', hrhs, h⟩ := bind_eq_some_iff.mp h
    refine bind_eq_some_iff.mpr ⟨lhs', ihl hlhs, bind_eq_some_iff.mpr ⟨rhs', ihr hrhs, ?_⟩⟩
    cases kind with
    | add => exact (extends_commonAddWithMul depth).internalAddWith _ _ _ _ h
    | mul | mod | floorDiv | ceilDiv => exact h

end

/-! ### Constructors that fold constants -/

namespace Folding

def add : AffineExpr → AffineExpr → AffineExpr
  | const a, const b => const (a + b)
  | const a, e => if a = 0 then e else bin .add e (const a)
  | e, const b => if b = 0 then e else bin .add e (const b)
  | a, b => bin .add a b

def mul : AffineExpr → AffineExpr → AffineExpr
  | const a, const b => const (a * b)
  | const a, e => if a = 1 then e else bin .mul e (const a)
  | e, const b => if b = 1 then e else bin .mul e (const b)
  | a, b => bin .mul a b

def floorDiv : AffineExpr → AffineExpr → AffineExpr
  | const a, const b => const (a / b)
  | bin .mul e (const a), const b =>
    if b ≠ 0 ∧ b ∣ a then mul e (const (a / b)) else bin .floorDiv (bin .mul e (const a)) (const b)
  | a, b => bin .floorDiv a b

def getLargestKnownDivisor : AffineExpr → Int
  | const c => |c|
  | bin .add a b => Int.gcd (getLargestKnownDivisor a) (getLargestKnownDivisor b)
  | bin .mul a b => getLargestKnownDivisor a * getLargestKnownDivisor b
  | _ => 1

def mlir : Mlir where
  add := add
  mul := mul
  mod := bin .mod
  floorDiv := floorDiv
  isMultipleOf e factor := decide (factor ∣ getLargestKnownDivisor e)
  getLargestKnownDivisor := getLargestKnownDivisor
  sort cmp l := l.insertionSort fun a b => cmp b a = false

variable {dims syms : Nat → Int}

theorem eval_add (a b : AffineExpr) : (add a b).eval dims syms = a.eval dims syms + b.eval dims syms := by
  fun_cases add a b with
  | case1 => rfl
  | case2 => exact (Int.zero_add _).symm
  | case3 => exact Int.add_comm _ _
  | case4 => exact (Int.add_zero _).symm
  | case5 | case6 => rfl

theorem eval_mul (a b : AffineExpr) : (mul a b).eval dims syms = a.eval dims syms * b.eval dims syms := by
  fun_cases mul a b with
  | case1 => rfl
  | case2 => exact (Int.one_mul _).symm
  | case3 => exact Int.mul_comm _ _
  | case4 => exact (Int.mul_one _).symm
  | case5 | case6 => rfl

theorem eval_floorDiv (a b : AffineExpr) : (floorDiv a b).eval dims syms = a.eval dims syms / b.eval dims syms := by
  fun_cases floorDiv a b with
  | case1 => rfl
  | case2 e c d hdvd =>
    rw [eval_mul]
    exact (Int.mul_ediv_assoc _ hdvd.2).symm
  | case3 | case4 => rfl

theorem getLargestKnownDivisor_dvd (e : AffineExpr) :
    getLargestKnownDivisor e ∣ e.eval dims syms := by
  induction e with
  | const c => exact (abs_dvd c c).mpr (Int.dvd_refl c)
  | dim | sym => exact Int.one_dvd _
  | bin kind lhs rhs ihl ihr =>
    cases kind with
    | add => exact Int.dvd_add ((Int.gcd_dvd_left _ _).trans ihl) ((Int.gcd_dvd_right _ _).trans ihr)
    | mul => exact mul_dvd_mul ihl ihr
    | mod | floorDiv | ceilDiv => exact Int.one_dvd _

theorem sound_mlir : mlir.Sound dims syms where
  eval_add := eval_add
  eval_mul := eval_mul
  eval_mod _ _ _ := rfl
  eval_floorDiv a b _ := eval_floorDiv a b
  eval_floorDiv_of_dvd a b _ _ := eval_floorDiv a b
  dvd_of_isMultipleOf a _ h := (of_decide_eq_true h).trans (getLargestKnownDivisor_dvd a)
  getLargestKnownDivisor_dvd := getLargestKnownDivisor_dvd
  sort_perm _ _ := perm_insertionSort _ _

def quotient : AffineExpr := bin .floorDiv (bin .add (bin .mul (dim 0) (const 4)) (const 8)) (const 4)

end Folding

end SimplifyAffineExprs

end EnzymeJax
