import EnzymeJax.WhileLoop.Dialect
import EnzymeJax.WhileLoopInfo

/-!
# Trip counts in machine arithmetic

The trip count of constant bounds is computed on `int64_t`, and rounded up. Else an expression is built for it in the
type of the induction variable, which rounds towards zero.
-/

namespace EnzymeJax.WhileLoop

open Tensor IntType Option

variable {α V : Type}

def getConstantNumIters (start limit step : Int) : Option Int :=
  if limit < start then some 0
  else if step < 0 ∧ start < limit then some 0
  else do
    let diff ← int64 (limit - start)
    let sum ← int64 (diff + step)
    let sum ← int64 (sum - 1)
    if step = 0 then none else int64 (sum.tdiv step)

/-- The operations that `getNumIters` creates. -/
inductive NumIters (V : Type)
  | value (v : V)
  | constant (n : Int)
  | subtract (type : IntType) (lhs rhs : NumIters V)
  | divide (type : IntType) (lhs rhs : NumIters V)

def NumIters.eval (env : V → Val α) : NumIters V → Option (Val α)
  | value v => some (env v)
  | constant n => some (ofInt n)
  | subtract type lhs rhs => do
    let x ← lhs.eval env
    let y ← rhs.eval env
    (Op.subtract type).eval [x, y]
  | divide type lhs rhs => do
    let x ← lhs.eval env
    let y ← rhs.eval env
    (Op.divide type).eval [x, y]

/-- What `computeInfo` finds. The step is a value, or an integer where it comes from the affine indices. -/
structure LoopInfo (V : Type) where
  type : IntType
  start : V
  limit : V
  step : V ⊕ Int
  constStart : Option Int
  constLimit : Option Int
  constStep : Option Int

namespace LoopInfo

variable (info : LoopInfo V)

def isConstant : Option (Int × Int × Int) := do
  let start ← info.constStart
  let limit ← info.constLimit
  let step ← info.constStep
  return (start, limit, step)

/-- Nothing is created where the limit or the step is defined outside of the region that the loop is in. Values
that are defined in the regions of the loop are used, other than the source says. -/
def getNumIters (inOpRegion : V → Bool) : Option (NumIters V) :=
  if !inOpRegion info.limit || info.step.elim (fun v => !inOpRegion v) fun _ => false then none
  else match info.isConstant with
    | some (start, limit, step) =>
      (getConstantNumIters start limit step).map fun n => .constant (info.type.wrap n)
    | none =>
      let stepVal := info.step.elim .value fun n => .constant (info.type.wrap n)
      some (.divide info.type (.subtract info.type (.value info.limit) (.value info.start)) stepVal)

/-- The values that the bounds have when the loop is entered. -/
structure Has (env : V → Val α) (start limit step : Int) : Prop where
  start_eq : env info.start = ofInt start
  limit_eq : env info.limit = ofInt limit
  step_eq : (info.step.elim env fun n => ofInt (info.type.wrap n)) = ofInt step

end LoopInfo

/-! ### The loop -/

def inductionVar (type : IntType) (start step : Int) (k : Nat) : Int := (fun i => type.wrap (i + step))^[k] start

/-- `while (i < limit) i += step` ends after `n` iterations, and no addition overflows. -/
structure EndsWithoutOverflow (type : IntType) (start limit step : Int) (n : Nat) : Prop where
  start_fits : type.wrap start = start
  limit_fits : type.wrap limit = limit
  step_fits : type.wrap step = step
  goes_on : ∀ k < n, inductionVar type start step k < limit
  ends : ¬inductionVar type start step n < limit
  exact : ∀ k < n, type.wrap (inductionVar type start step k + step) = inductionVar type start step k + step

section

variable {type : IntType} {width : Nat} {start limit step : Int} {n : Nat}

section

variable (h : EndsWithoutOverflow type start limit step n)

include h

theorem EndsWithoutOverflow.inductionVar_eq {k : Nat} (hk : k ≤ n) :
    inductionVar type start step k = start + k * step := by
  induction k with
  | zero => simp [inductionVar]
  | succ k ih =>
    have hprev := ih (by omega)
    have hnext : inductionVar type start step (k + 1) = type.wrap (inductionVar type start step k + step) :=
      Function.iterate_succ_apply' _ _ _
    rw [hnext, h.exact k (by omega), hprev]
    push_cast
    ring

theorem EndsWithoutOverflow.step_pos (hn : 0 < n) : 0 < step := by
  have hfirst := h.goes_on 0 hn
  have hend := h.ends
  rw [h.inductionVar_eq (Nat.zero_le n)] at hfirst
  rw [h.inductionVar_eq le_rfl] at hend
  by_contra hstep
  have hdown : (n : Int) * step ≤ 0 := mul_nonpos_of_nonneg_of_nonpos (by omega) (by omega)
  simp only [Nat.cast_zero, zero_mul, add_zero] at hfirst
  omega

theorem EndsWithoutOverflow.eq_zero_iff : n = 0 ↔ limit ≤ start := by
  constructor
  · rintro rfl
    exact not_lt.mp h.ends
  · intro hle
    by_contra hn
    exact absurd (h.goes_on 0 (pos_of_ne_zero hn)) (not_lt.mpr hle)

theorem EndsWithoutOverflow.between (hn : 0 < n) : (n - 1) * step < limit - start ∧ limit - start ≤ n * step := by
  have hlast := h.goes_on (n - 1) (by omega)
  have hend := h.ends
  rw [h.inductionVar_eq (by omega), Nat.cast_sub (by omega), Nat.cast_one] at hlast
  rw [h.inductionVar_eq le_rfl] at hend
  constructor
  · omega
  · omega

theorem EndsWithoutOverflow.ceil_eq (hle : start ≤ limit)
    (hstep : 0 < step) : (limit - start + step - 1) / step = n := by
  obtain rfl | hn := eq_zero_or_pos n
  · obtain rfl := le_antisymm hle (h.eq_zero_iff.mp rfl)
    rw [sub_self, zero_add]
    exact Int.ediv_eq_zero_of_lt (by omega) (by omega)
  · obtain ⟨hlast, hend⟩ := h.between hn
    rw [sub_mul, one_mul] at hlast
    refine le_antisymm (Int.lt_add_one_iff.mp (Int.ediv_lt_of_lt_mul hstep ?_)) (Int.le_ediv_of_mul_le hstep ?_)
    · rw [add_mul, one_mul]
      omega
    · omega

end

/-! ### Constant bounds -/

theorem tdiv_eq_zero_iff {a b : Int} (hb : b ≠ 0) : a.tdiv b = 0 ↔ a.natAbs < b.natAbs := by
  rw [← Int.natAbs_eq_zero, Int.natAbs_tdiv]
  change a.natAbs / b.natAbs = 0 ↔ _
  rw [Nat.div_eq_zero_iff, or_iff_right (Int.natAbs_ne_zero.mpr hb)]

theorem getConstantNumIters_of_up (hle : start ≤ limit) (hstep : 0 < step) (hsum : limit - start + step < 2 ^ 63) :
    getConstantNumIters start limit step = some ((limit - start + step - 1) / step) := by
  have hquot : (limit - start + step - 1) / step ≤ limit - start + step - 1 := Int.ediv_le_self _ (by omega)
  have hnonneg : 0 ≤ (limit - start + step - 1) / step := Int.ediv_nonneg (by omega) hstep.le
  rw [getConstantNumIters, if_neg (not_lt.mpr hle), if_neg (by omega), int64_of_fits (by omega) (by omega),
    bind_eq_bind, bind_some, int64_of_fits (by omega) hsum, bind_some,
    int64_of_fits (by omega) (by omega), bind_some, if_neg hstep.ne', Int.tdiv_eq_ediv_of_nonneg (by omega),
    int64_of_fits (by omega) (by omega)]

theorem getConstantNumIters_of_overflow (hle : start ≤ limit) (hstep : 0 < step)
    (hsum : 2 ^ 63 ≤ limit - start + step) : getConstantNumIters start limit step = none := by
  rw [getConstantNumIters, if_neg (not_lt.mpr hle), if_neg (by omega)]
  by_cases hdiff : limit - start < 2 ^ 63
  · rw [int64_of_fits (by omega) hdiff, bind_eq_bind, bind_some, int64_of_le hsum]
    rfl
  · rw [int64_of_le (not_lt.mp hdiff)]
    rfl

theorem getConstantNumIters_ne_zero (hstep : step < 0) : getConstantNumIters start start step ≠ some 0 := by
  intro hzero
  rw [getConstantNumIters, if_neg (lt_irrefl start), if_neg (by omega), sub_self,
    int64_of_fits (by decide) (by decide), bind_eq_bind, bind_some, zero_add] at hzero
  obtain ⟨sum, hsum, hzero⟩ := bind_eq_some_iff.mp hzero
  obtain rfl := eq_of_int64 hsum
  obtain ⟨sum, hsum, hzero⟩ := bind_eq_some_iff.mp hzero
  obtain rfl := eq_of_int64 hsum
  rw [if_neg hstep.ne] at hzero
  have hsmall := (tdiv_eq_zero_iff hstep.ne).mp (eq_of_int64 hzero)
  omega

/-- The constant trip count is right if the bounds are in order, unless its computation overflows. -/
theorem getConstantNumIters_eq_iff (h : EndsWithoutOverflow type start limit step n) (hstep : step ≠ 0) :
    getConstantNumIters start limit step = some (n : Int) ↔
      limit < start ∨ 0 < step ∧ limit - start + step < 2 ^ 63 := by
  obtain hlt | hle := lt_or_ge limit start
  · have hn := h.eq_zero_iff.mpr hlt.le
    rw [getConstantNumIters, if_pos hlt, hn]
    exact iff_of_true rfl (.inl hlt)
  rw [or_iff_right (not_lt.mpr hle)]
  obtain hdown | hup := lt_or_gt_of_ne hstep
  · -- the loop would not end if it had an iteration
    have hn : n = 0 := by
      by_contra hn
      exact absurd (h.step_pos (pos_of_ne_zero hn)) (not_lt.mpr hdown.le)
    obtain rfl : limit = start := le_antisymm (h.eq_zero_iff.mp hn) hle
    subst hn
    exact iff_of_false (getConstantNumIters_ne_zero hdown) fun h => absurd h.1 (not_lt.mpr hdown.le)
  · rw [and_iff_right hup]
    obtain hsum | hsum := lt_or_ge (limit - start + step) (2 ^ 63)
    · refine iff_of_true ?_ hsum
      rw [getConstantNumIters_of_up hle hup hsum]
      exact congrArg some (h.ceil_eq hle hup)
    · rw [getConstantNumIters_of_overflow hle hup hsum]
      exact iff_of_false (by rintro ⟨⟩) (not_lt.mpr hsum)

/-! ### The expression -/

theorem eval_subtract_ofInt (a b : Int) :
    (Op.subtract type).eval [ofInt a, ofInt b] = some (ofInt (type.wrap (a - b)) : Val α) :=
  arith_ofInts.mpr ⟨fun _ => type.wrap (a - b), rfl, fun _ _ => rfl⟩

theorem eval_divide_ofInt {a b : Int} (hb : b ≠ 0) :
    (Op.divide type).eval [ofInt a, ofInt b] = some (ofInt (type.wrap (a.tdiv b)) : Val α) :=
  arith_ofInts.mpr ⟨fun _ => type.wrap (a.tdiv b), rfl, fun _ _ => if_neg hb⟩

section

variable {env : V → Val α} {lhs rhs : NumIters V} {x y : Val α} (hx : lhs.eval env = some x)
  (hy : rhs.eval env = some y)

include hx hy

theorem NumIters.eval_subtract : (subtract type lhs rhs).eval env = (Op.subtract type).eval [x, y] := by
  rw [eval, hx, hy]
  rfl

theorem NumIters.eval_divide : (divide type lhs rhs).eval env = (Op.divide type).eval [x, y] := by
  rw [eval, hx, hy]
  rfl

end

theorem eval_getNumIters {info : LoopInfo V} {inOpRegion : V → Bool} {env : V → Val α} {e : NumIters V}
    (h : info.getNumIters inOpRegion = some e) (hconst : info.isConstant = none)
    (hhas : info.Has env start limit step) (hstep : step ≠ 0) :
    e.eval env = some (ofInt (info.type.wrap ((info.type.wrap (limit - start)).tdiv step))) := by
  obtain ⟨-, h⟩ := ite_none_left_eq_some.mp h
  rw [hconst] at h
  cases h
  have hstepVal : (info.step.elim NumIters.value fun n => NumIters.constant (info.type.wrap n)).eval env =
      some (ofInt step) := by
    rw [← hhas.step_eq]
    cases info.step with
    | inl v | inr n => rfl
  have hdiff : (NumIters.subtract info.type (.value info.limit) (.value info.start)).eval env =
      some (ofInt (info.type.wrap (limit - start))) := by
    rw [NumIters.eval_subtract rfl rfl, hhas.limit_eq, hhas.start_eq, eval_subtract_ofInt]
  rw [NumIters.eval_divide hdiff hstepVal, eval_divide_ofInt hstep]

theorem wrap_signed_range (hwidth : 0 < width) (m : Int) :
    -2 ^ (width - 1) ≤ IntType.wrap ⟨width, false⟩ m ∧ IntType.wrap ⟨width, false⟩ m < 2 ^ (width - 1) :=
  (IntType.wrap_signed_eq_iff hwidth).mp (IntType.wrap_wrap _ m)

theorem two_pow_eq (hwidth : 0 < width) : (2 ^ width : Int) = 2 * 2 ^ (width - 1) := by
  rw [← pow_succ', Nat.sub_add_cancel hwidth]

theorem wrap_sub_neg (hwidth : 0 < width) (hstart : IntType.wrap ⟨width, false⟩ start = start)
    (hlimit : IntType.wrap ⟨width, false⟩ limit = limit) (hlarge : 2 ^ (width - 1) ≤ limit - start) :
    IntType.wrap ⟨width, false⟩ (limit - start) < 0 := by
  have hrangeStart := (IntType.wrap_signed_eq_iff hwidth).mp hstart
  have hrangeLimit := (IntType.wrap_signed_eq_iff hwidth).mp hlimit
  have hrange := wrap_signed_range hwidth (limit - start)
  obtain ⟨k, hk⟩ := IntType.dvd_wrap_sub ⟨width, false⟩ (limit - start)
  dsimp only at hk
  have hpow := two_pow_eq hwidth
  have hneg : (2 ^ width : Int) * k < 0 := by
    rw [← hk]
    omega
  have hk' : k ≤ -1 := by
    by_contra hge
    exact absurd hneg (not_lt.mpr (mul_nonneg (by positivity) (by omega)))
  have hmul : (2 ^ width : Int) * k ≤ 2 ^ width * -1 := mul_le_mul_of_nonneg_left hk' (by positivity)
  omega

theorem wrap_eq_zero_iff {m : Int} (hlow : -2 ^ width < m) (hhigh : m < 2 ^ width) :
    IntType.wrap ⟨width, false⟩ m = 0 ↔ m = 0 := by
  constructor
  · intro hzero
    have hdvd := IntType.dvd_wrap_sub ⟨width, false⟩ m
    rw [hzero, zero_sub, Int.dvd_neg] at hdvd
    exact Int.eq_zero_of_abs_lt_dvd hdvd (abs_lt.mpr ⟨hlow, hhigh⟩)
  · rintro rfl
    exact IntType.wrap_zero _

/-- The quotient is the trip count if the step divides the difference, or if it is small. -/
theorem quotient_eq_iff (h : EndsWithoutOverflow ⟨width, false⟩ start limit step n) (hwidth : 0 < width)
    (hstep : step ≠ 0) : IntType.wrap ⟨width, false⟩ ((IntType.wrap ⟨width, false⟩ (limit - start)).tdiv step) = n ↔
      if limit ≤ start then (IntType.wrap ⟨width, false⟩ (limit - start)).natAbs < step.natAbs
      else step ∣ limit - start ∧ limit - start < 2 ^ (width - 1) := by
  have hrange := wrap_signed_range hwidth (limit - start)
  have hpow := two_pow_eq hwidth
  have hquot := Int.natAbs_tdiv_le_natAbs (IntType.wrap ⟨width, false⟩ (limit - start)) step
  have hpos : (0 : Int) < 2 ^ (width - 1) := by positivity
  obtain hle | hlt := le_or_gt limit start
  · rw [if_pos hle, h.eq_zero_iff.mpr hle, Nat.cast_zero, wrap_eq_zero_iff (by omega) (by omega), tdiv_eq_zero_iff hstep]
  rw [if_neg (not_le.mpr hlt)]
  have hn : 0 < n := pos_of_ne_zero fun hn => absurd (h.eq_zero_iff.mp hn) (not_le.mpr hlt)
  have hup := h.step_pos hn
  obtain hsmall | hlarge := lt_or_ge (limit - start) (2 ^ (width - 1))
  · have hdiff : IntType.wrap ⟨width, false⟩ (limit - start) = limit - start :=
      (IntType.wrap_signed_eq_iff hwidth).mpr ⟨by omega, hsmall⟩
    rw [hdiff] at hquot ⊢
    rw [(IntType.wrap_signed_eq_iff hwidth).mpr ⟨by omega, by omega⟩, and_iff_left hsmall,
      Int.tdiv_eq_ediv_of_nonneg (by omega)]
    obtain ⟨hlast, hend⟩ := h.between hn
    constructor
    · intro heq
      have hmul := Int.ediv_mul_le (limit - start) hstep
      rw [heq] at hmul
      exact ⟨n, by rw [mul_comm]; omega⟩
    · rintro ⟨m, hm⟩
      rw [hm, Int.mul_ediv_cancel_left _ hstep]
      rw [hm, mul_comm step m] at hlast hend
      have hlow := lt_of_mul_lt_mul_right hlast hup.le
      have hhigh := le_of_mul_le_mul_right hend hup
      omega
  · have hneg := wrap_sub_neg hwidth h.start_fits h.limit_fits hlarge
    refine iff_of_false (fun heq => ?_) fun hand => absurd hand.2 (not_lt.mpr hlarge)
    have hnonpos : (IntType.wrap ⟨width, false⟩ (limit - start)).tdiv step ≤ 0 := by
      rw [← neg_neg (IntType.wrap ⟨width, false⟩ (limit - start)), Int.neg_tdiv, neg_nonpos]
      exact Int.tdiv_nonneg (by omega) hup.le
    rw [(IntType.wrap_signed_eq_iff hwidth).mpr ⟨by omega, by omega⟩] at heq
    omega

end

/-- The constant trip count and, where the bounds are not all constant, the value of the expression. -/
structure NumItersExact (α : Type) (type : IntType) (start limit step : Int) (n : Nat) : Prop where
  constant : getConstantNumIters start limit step = some (n : Int)
  expression : ∀ (V : Type) (info : LoopInfo V) (inOpRegion : V → Bool) (env : V → Val α) (e : NumIters V),
    info.type = type → info.isConstant = none → info.Has env start limit step →
      info.getNumIters inOpRegion = some e → e.eval env = some (ofInt n)

def boundArgs (type : IntType) : LoopInfo ℕ := ⟨type, 0, 1, .inl 2, none, none, none⟩

theorem ofInt_inj {a b : Int} : (ofInt a : Val α) = ofInt b ↔ a = b := by
  constructor
  · intro h
    have hint := congrArg toInt h
    rw [toInt_ofInt, toInt_ofInt] at hint
    exact some.inj hint
  · rintro rfl
    rfl

theorem NumItersExact.quotient_eq {type : IntType} {start limit step : Int} {n : Nat}
    (h : NumItersExact α type start limit step n) (hstep : step ≠ 0) :
    type.wrap ((type.wrap (limit - start)).tdiv step) = n := by
  have hhas : (boundArgs type).Has (fun v => ofInt ([start, limit, step].getD v 0) : ℕ → Val α)
      start limit step := ⟨rfl, rfl, rfl⟩
  have hcreated : (boundArgs type).getNumIters (fun _ => true) =
      some (.divide type (.subtract type (.value 1) (.value 0)) (.value 2)) := rfl
  have heval := h.expression _ _ (fun _ => true) _ _ rfl rfl hhas hcreated
  rw [eval_getNumIters hcreated rfl hhas hstep] at heval
  exact ofInt_inj.mp (some.inj heval)

theorem endsWithoutOverflow_even : EndsWithoutOverflow ⟨64, false⟩ 0 4 2 2 := by
  refine ⟨by decide, by decide, by decide, by decide, by decide, by decide⟩

-- nothing is executed, but the constant trip count of a negative step is not zero
example : getConstantNumIters 5 5 (-1) = some 2 := by decide

end EnzymeJax.WhileLoop
