import EnzymeJax.Raising.Affine

/-!
# Bounds of index arithmetic

The expressions over the variables of parallel loops that are cast between `index` and integer types,
and the bound `maxSize` finds for them in 64-bit arithmetic of its own.
-/

namespace EnzymeJax.CanonicalizeLoops

deriving instance DecidableEq for AffineExpr

inductive IntTy where
  | index
  | int (width : Nat)
  deriving DecidableEq

@[reducible] def IntTy.width : IntTy → Nat
  | index => 64
  | int width => width

/-- The groups give, for each variable, how many results of the map bound it. -/
structure AffineParallelOp where
  reductions : List Nat
  lowerBoundsGroups : List Nat
  lowerBoundsMap : List AffineExpr
  upperBoundsGroups : List Nat
  upperBoundsMap : List AffineExpr
  steps : List Nat
  deriving DecidableEq

inductive ArithOp where
  | addi
  | subi
  | muli
  | divui
  | remui
  | shli
  | shrui
  deriving DecidableEq

/-- An `arg` is any value defined in another way. -/
inductive Expr : IntTy → Type where
  | arg {t : IntTy} (position : Nat) : Expr t
  | iv (par : AffineParallelOp) (idx : Nat) : Expr .index
  | const {t : IntTy} (value : BitVec t.width) : Expr t
  | bin {t : IntTy} (op : ArithOp) (lhs rhs : Expr t) : Expr t
  | indexCastUI {w : Nat} (operand : Expr .index) : Expr (.int w)
  | indexCast {w : Nat} (operand : Expr .index) : Expr (.int w)
  | extUI {v w : Nat} (narrow : v < w) (operand : Expr (.int v)) : Expr (.int w)
  | truncI {v w : Nat} (wide : w < v) (operand : Expr (.int v)) : Expr (.int w)
  deriving DecidableEq

/-- Division by zero and shifting past the width leave the value open; here they keep that of `BitVec`. -/
def ArithOp.eval {w : Nat} : ArithOp → BitVec w → BitVec w → BitVec w
  | .addi, a, b => a + b
  | .subi, a, b => a - b
  | .muli, a, b => a * b
  | .divui, a, b => a / b
  | .remui, a, b => a % b
  | .shli, a, b => a <<< b
  | .shrui, a, b => a >>> b

def ArithOp.Defined {w : Nat} : ArithOp → BitVec w → Prop
  | .divui, b | .remui, b => b ≠ 0
  | .shli, b | .shrui, b => b.toNat < w
  | _, _ => True

/-- The sum or product, read as unsigned, is the mathematical one. -/
def ArithOp.NoWrap {w : Nat} : ArithOp → BitVec w → BitVec w → Prop
  | .addi, a, b => a.toNat + b.toNat < 2 ^ w
  | .muli, a, b => a.toNat * b.toNat < 2 ^ w
  | _, _, _ => True

/-- The bound of a result, from the bound of the left operand and the value of a constant right one. -/
def ArithOp.maxSize (cut : Int → Int) {w : Nat} : ArithOp → Option Int → Option (BitVec w) → Option Int
  | .shrui, some m, none | .muli, some m, none | .divui, some m, none => some m
  | .shrui, some m, some c => some (m >>> c.toNat)
  | .remui, lhs, none => lhs
  | .remui, none, some c => some (cut c.toNat)
  -- the comparison with a `uint64_t` is unsigned
  | .remui, some m, some c => some (if m % 2 ^ 64 < c.toNat then m else cut c.toNat)
  | .muli, some m, some c => if c.msb then none else some (cut (m * c.toNat))
  | .divui, some m, some c => if c.msb then none else some (m >>> c.toNat)
  | .addi, some m, some c => if c.msb then none else some (cut (m + c.toNat))
  | _, _, _ => none

/-- The values of the other definitions, of the variables of each loop, and of the operands of its bounds. -/
structure Env where
  arg (t : IntTy) : Nat → BitVec t.width
  iv : AffineParallelOp → Nat → Int
  dims : AffineParallelOp → Nat → Int
  syms : AffineParallelOp → Nat → Int

def Env.bound (env : Env) (par : AffineParallelOp) (bound : AffineExpr) : Int :=
  bound.eval (env.dims par) (env.syms par)

def boundGroup (groups : List Nat) (map : List AffineExpr) (idx : Nat) : List AffineExpr :=
  (map.drop (groups.take idx).sum).take (groups.getD idx 0)

def AffineParallelOp.lowerBounds (par : AffineParallelOp) : Nat → List AffineExpr :=
  boundGroup par.lowerBoundsGroups par.lowerBoundsMap

def AffineParallelOp.upperBounds (par : AffineParallelOp) : Nat → List AffineExpr :=
  boundGroup par.upperBoundsGroups par.upperBoundsMap

/-- The variable is some steps above the largest of its lower bounds and below each upper bound. -/
def AffineParallelOp.Inside (par : AffineParallelOp) (env : Env) (idx : Nat) : Prop :=
  (∃ lb ∈ par.lowerBounds idx, (∀ l ∈ par.lowerBounds idx, env.bound par l ≤ env.bound par lb) ∧
    ∃ k : Nat, env.iv par idx = env.bound par lb + k * par.steps.getD idx 0) ∧
  ∀ ub ∈ par.upperBounds idx, env.iv par idx < env.bound par ub

namespace Expr

def eval (env : Env) : {t : IntTy} → Expr t → BitVec t.width
  | t, arg position => env.arg t position
  | _, iv par idx => .ofInt 64 (env.iv par idx)
  | _, const value => value
  | _, bin op lhs rhs => op.eval (lhs.eval env) (rhs.eval env)
  | .int w, indexCastUI operand | .int w, extUI _ operand | .int w, truncI _ operand =>
    (operand.eval env).setWidth w
  | .int w, indexCast operand => (operand.eval env).signExtend w

/-- The variables lie inside their loops and every operation has a value that does not wrap. -/
def Valid (env : Env) : {t : IntTy} → Expr t → Prop
  | _, arg _ | _, const _ => True
  | _, iv par idx => par.Inside env idx
  | _, bin op lhs rhs => lhs.Valid env ∧ rhs.Valid env ∧ op.Defined (rhs.eval env) ∧
    op.NoWrap (lhs.eval env) (rhs.eval env)
  | _, indexCastUI operand | _, indexCast operand | _, extUI _ operand | _, truncI _ operand =>
    operand.Valid env

/-- `matchPattern(v, m_Constant(..))`. -/
def constValue : {t : IntTy} → Expr t → Option (BitVec t.width)
  | _, const value => some value
  | _, _ => none

/-- `maxSize` over integers of which `cut` keeps the part that an `int64_t` can hold. -/
def maxSizeWith (cut : Int → Int) : {t : IntTy} → Expr t → Option Int
  | _, iv par idx =>
    if par.reductions ≠ [] then none
    else if par.upperBoundsGroups.getD idx 0 ≠ 1 then none
    else match par.upperBoundsMap[(par.upperBoundsGroups.take idx).sum]? with
      | some (.const ub) => some (cut (ub - 1))
      | _ => none
  | _, bin op lhs rhs => op.maxSize cut (lhs.maxSizeWith cut) rhs.constValue
  | _, _ => none

def maxSize {t : IntTy} : Expr t → Option Int := maxSizeWith fun n => n.bmod (2 ^ 64)

end Expr

namespace Expr

/-- The bound that the same recursion finds in unbounded integers. -/
def exactMaxSize {t : IntTy} : Expr t → Option Int := maxSizeWith id

/-- Where the recursion passes, no lower bound is negative, every right factor and no divisor is
constant, and every bound is an `int64_t`. -/
def Supported (env : Env) : {t : IntTy} → Expr t → Prop
  | _, iv par idx => ∀ b, (iv par idx).exactMaxSize = some b →
    (∃ lb ∈ par.lowerBounds idx, 0 ≤ env.bound par lb) ∧ b < 2 ^ 63
  | _, bin op lhs rhs => ∀ b, (bin op lhs rhs).exactMaxSize = some b → lhs.Supported env ∧
    b < 2 ^ 63 ∧ (op = .muli → rhs.constValue ≠ none) ∧ (op = .divui → rhs.constValue = none)
  | _, _ => True

theorem constValue_eq_some {t : IntTy} {e : Expr t} {c : BitVec t.width} (h : e.constValue = some c) :
    e = const c := by
  cases e with
  | const value => cases h; rfl
  | _ => cases h

theorem isSome_maxSizeWith (f g : Int → Int) {t : IntTy} (e : Expr t) :
    (e.maxSizeWith f).isSome = (e.maxSizeWith g).isSome := by
  induction e with
  | iv par idx =>
    simp only [maxSizeWith]
    repeat' split
    all_goals rfl
  | bin op lhs rhs ih _ =>
    rw [maxSizeWith, maxSizeWith]
    revert ih
    cases lhs.maxSizeWith f <;> cases lhs.maxSizeWith g <;> intro ih <;> cases ih <;>
      cases op <;> cases rhs.constValue <;> first | rfl | (simp only [ArithOp.maxSize]; split <;> rfl)
  | _ => rfl

theorem bmod_of_bound {b : Int} {n : Nat} (hle : n ≤ b) (h : b < 2 ^ 63) : b.bmod (2 ^ 64) = b := by
  rw [Int.bmod_eq_iff (by norm_num)]
  omega

theorem eval_iv_le {env : Env} {par : AffineParallelOp} {idx : Nat} {b : Int}
    (hb : (iv par idx).exactMaxSize = some b) (hin : par.Inside env idx) (hs : (iv par idx).Supported env) :
    ((iv par idx).eval env).toNat ≤ b ∧ (iv par idx).maxSize = some b := by
  obtain ⟨⟨l, hl, hpos⟩, hlt⟩ := hs b hb
  obtain ⟨⟨lb, hlb, hmax, k, hk⟩, hub⟩ := hin
  have hiv : 0 ≤ env.iv par idx := by
    have := hmax l hl
    have : 0 ≤ (k : Int) * par.steps.getD idx 0 := by positivity
    omega
  simp only [exactMaxSize, maxSizeWith, id] at hb
  split at hb
  · cases hb
  split at hb
  · cases hb
  split at hb
  · rename_i ub hget
    cases hb
    have hmem : AffineExpr.const ub ∈ par.upperBounds idx := by
      obtain ⟨hi, he⟩ := List.getElem?_eq_some_iff.mp hget
      rw [AffineParallelOp.upperBounds, boundGroup, show par.upperBoundsGroups.getD idx 0 = 1 by omega,
        List.drop_eq_getElem_cons hi, he]
      simp
    have hub : env.iv par idx < ub := hub _ hmem
    have heval : ((iv par idx).eval env).toNat = env.iv par idx := by
      simp only [eval, BitVec.toNat_ofInt, IntTy.width]
      omega
    rw [heval]
    refine ⟨by omega, ?_⟩
    rw [maxSize, maxSizeWith, if_neg ‹_›, if_neg ‹_›, hget]
    exact congrArg some (bmod_of_bound (n := (env.iv par idx).toNat) (by omega) hlt)
  · cases hb

/-- One operation: its bound is right and computed exactly when that of its left operand is. -/
theorem eval_le_op {w : Nat} {op : ArithOp} {a b : BitVec w} {lhs : Option Int} {rhs : Option (BitVec w)}
    {m : Int} (hrhs : ∀ c, rhs = some c → b = c) (hlhs : ∀ m, lhs = some m → a.toNat ≤ m)
    (hdef : op.Defined b) (hwrap : op.NoWrap a b) (hm : op.maxSize id lhs rhs = some m) (hlt : m < 2 ^ 63)
    (hmul : op = .muli → rhs ≠ none) (hdiv : op = .divui → rhs = none) :
    (op.eval a b).toNat ≤ m ∧ op.maxSize (fun n => n.bmod (2 ^ 64)) lhs rhs = some m := by
  have hmod : op = .remui → ((a % b).toNat : Int) < b.toNat := by
    rintro rfl
    exact_mod_cast Nat.mod_lt _ (Nat.pos_of_ne_zero fun h => hdef (BitVec.eq_of_toNat_eq h))
  unfold ArithOp.maxSize at hm
  split at hm
  case h_1 m | h_3 m =>
    cases hm
    refine ⟨le_trans ?_ (hlhs m rfl), rfl⟩
    simp only [ArithOp.eval, BitVec.ushiftRight_eq', BitVec.toNat_ushiftRight, BitVec.toNat_udiv]
    exact_mod_cast by first | exact Nat.shiftRight_le _ _ | exact Nat.div_le_self _ _
  case h_2 => exact absurd rfl (hmul rfl)
  case h_4 m c =>
    cases hm
    cases hrhs c rfl
    refine ⟨?_, rfl⟩
    simp only [ArithOp.eval, BitVec.ushiftRight_eq', BitVec.toNat_ushiftRight, Int.shiftRight_eq_div_pow,
      Nat.shiftRight_eq_div_pow]
    push_cast
    exact Int.ediv_le_ediv (by positivity) (hlhs m rfl)
  case h_5 =>
    refine ⟨le_trans ?_ (hlhs m hm), hm⟩
    exact_mod_cast Nat.mod_le _ _
  case h_6 c =>
    cases hm
    cases hrhs c rfl
    exact ⟨(hmod rfl).le, congrArg some (bmod_of_bound (hmod rfl).le hlt)⟩
  case h_7 n c =>
    cases hrhs c rfl
    split at hm
    · cases hm
      refine ⟨le_trans ?_ (hlhs m rfl), by rw [ArithOp.maxSize, if_pos ‹_›]⟩
      exact_mod_cast Nat.mod_le _ _
    · cases hm
      exact ⟨(hmod rfl).le, by rw [ArithOp.maxSize, if_neg ‹_›, bmod_of_bound (hmod rfl).le hlt, id]⟩
  case h_8 n c =>
    cases hrhs c rfl
    split at hm
    · cases hm
    cases hm
    have hle : ((a * b).toNat : Int) ≤ n * b.toNat := by
      rw [BitVec.toNat_mul, Nat.mod_eq_of_lt hwrap]
      push_cast
      exact Int.mul_le_mul_of_nonneg_right (hlhs n rfl) (by positivity)
    exact ⟨hle, by rw [ArithOp.maxSize, if_neg ‹_›, bmod_of_bound hle hlt, id]⟩
  case h_9 => cases hdiv rfl
  case h_10 n c =>
    cases hrhs c rfl
    split at hm
    · cases hm
    cases hm
    have hle : ((a + b).toNat : Int) ≤ n + b.toNat := by
      rw [BitVec.toNat_add, Nat.mod_eq_of_lt hwrap]
      push_cast
      exact Int.add_le_add_right (hlhs n rfl) _
    exact ⟨hle, by rw [ArithOp.maxSize, if_neg ‹_›, bmod_of_bound hle hlt, id]⟩
  case h_11 => cases hm

theorem eval_le_exactMaxSize {env : Env} {t : IntTy} (e : Expr t) :
    e.Valid env → e.Supported env → ∀ b, e.exactMaxSize = some b → (e.eval env).toNat ≤ b ∧ e.maxSize = some b := by
  induction e with
  | iv par idx =>
    intro hv hs b hb
    exact eval_iv_le hb hv hs
  | bin op lhs rhs ih _ =>
    rintro ⟨hl, -, hdef, hwrap⟩ hs b hb
    obtain ⟨hsl, hlt, hmul, hdiv⟩ := hs b hb
    replace ih := ih hl hsl
    have hcut : lhs.maxSize = lhs.exactMaxSize := by
      cases hm : lhs.exactMaxSize with
      | none =>
        have hsome := isSome_maxSizeWith (fun n => n.bmod (2 ^ 64)) id lhs
        rw [← exactMaxSize, hm] at hsome
        exact Option.isNone_iff_eq_none.mp (Option.isSome_eq_false_iff.mp hsome)
      | some m => exact (ih m hm).2
    have hconst : ∀ c, rhs.constValue = some c → rhs.eval env = c := by
      intro c hc
      rw [constValue_eq_some hc]
      rfl
    rw [maxSize, maxSizeWith, ← maxSize, hcut]
    exact eval_le_op hconst (fun m hm => (ih m hm).1) hdef hwrap hb hlt hmul hdiv
  | _ =>
    intro _ _ b hb
    cases hb

def BoundHolds (env : Env) {t : IntTy} (e : Expr t) : Prop :=
  ∀ m, e.maxSize = some m → (e.eval env).toNat ≤ m ∧ e.exactMaxSize = some m

/-- The bound is right and computed without overflow where the recursion meets none of its faulty
rules: that a lower bound is zero, that an unknown factor is one, and that a quotient is a shift. -/
theorem maxSize_sound {env : Env} {t : IntTy} {e : Expr t} (hv : e.Valid env) (hs : e.Supported env) :
    e.BoundHolds env := by
  intro m hm
  have hsome : e.exactMaxSize.isSome := by
    rw [exactMaxSize, isSome_maxSizeWith id fun n => n.bmod (2 ^ 64), ← maxSize, hm]
    rfl
  obtain ⟨b, hb⟩ := Option.isSome_iff_exists.mp hsome
  obtain ⟨hle, hcut⟩ := eval_le_exactMaxSize e hv hs b hb
  cases hm.symm.trans hcut
  exact ⟨hle, hb⟩

/-- One variable that takes the values 0, 1, 2 and 3. -/
def fourSteps : AffineParallelOp := ⟨[], [1], [.const 0], [1], [.const 4], [1]⟩

def lastStep : Env := ⟨fun _ _ => 0, fun _ _ => 3, fun _ _ => 0, fun _ _ => 0⟩

theorem inside_lastStep : fourSteps.Inside lastStep 0 := by
  refine ⟨⟨.const 0, by decide, by decide, 3, by decide⟩, by decide⟩

theorem maxSize_sound_fourSteps : (bin .addi (bin .muli (iv fourSteps 0) (const 4)) (const 1)).BoundHolds lastStep := by
  refine maxSize_sound ⟨⟨inside_lastStep, trivial, trivial, ?_⟩, trivial, trivial, ?_⟩ fun b hb => ?_
  · exact Nat.le_of_ble_eq_true rfl
  · exact Nat.le_of_ble_eq_true rfl
  cases hb
  refine ⟨fun b hb => ?_, by decide, by rintro ⟨⟩, by rintro ⟨⟩⟩
  cases hb
  refine ⟨fun b hb => ?_, by decide, by rintro ⟨⟩ ⟨⟩, by rintro ⟨⟩⟩
  cases hb
  exact ⟨⟨.const 0, by decide, by decide⟩, by decide⟩

/-- The last of four values divided by one is three; the bound three shifted by one is one. -/
theorem not_maxSize_sound_divui :
    ¬∀ (env : Env) (t : IntTy) (e : Expr t), e.Valid env → e.BoundHolds env := by
  intro h
  have hbound := h lastStep _ (bin .divui (iv fourSteps 0) (const 1))
    ⟨inside_lastStep, trivial, by simp [ArithOp.Defined, eval], trivial⟩ 1 (by decide)
  exact absurd hbound.1 (by decide)

end Expr

end EnzymeJax.CanonicalizeLoops
