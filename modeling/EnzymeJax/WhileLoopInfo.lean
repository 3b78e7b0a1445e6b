import EnzymeJax.Library.Loop
import Mathlib.Tactic

/-!
# While loops with known bounds

A `stablehlo.while` with the condition `iv < limit`, whose body adds `step` to the induction variable. This and the
bounds are `i64` values that do not overflow, so they are integers here. The body is a pure function of the values
from outside the loop, the induction value and the other carried values.
-/

namespace EnzymeJax

/-- The bounds the analysis found, and whether all three are compile-time constants. -/
structure WhileLoopInfo where
  start : Int
  limit : Int
  step : Int
  isConstant : Bool

/-- The trip count of constant bounds. A step of zero divides by zero, which C++ leaves undefined. -/
def WhileLoopInfo.getConstantNumIters (info : WhileLoopInfo) : Option Int :=
  if info.limit < info.start then some 0
  else if info.step < 0 ∧ info.start < info.limit then some 0
  else if info.step = 0 then none
  else some ((info.limit - info.start + info.step - 1).tdiv info.step)

/-- A while loop with the induction variable at position 0. `ρ` holds the values its regions use
from outside, `σ` the carried values other than the induction variable. -/
structure WhileOp (ρ σ : Type) where
  info : WhileLoopInfo
  body : ρ → Int → σ → σ

namespace WhileOp

variable {ρ σ γ : Type} (op : WhileOp ρ σ) (refs : ρ) (init : σ)

/-- One execution of the body: the induction variable is stepped, the carried values recomputed. -/
def bodyStep (state : Int × σ) : Int × σ :=
  (state.1 + op.info.step, op.body refs state.1 state.2)

/-- The induction value and the carried values on entering iteration `k`. -/
def entering (k : Nat) : Int × σ := (op.bodyStep refs)^[k] (op.info.start, init)

/-- The loop runs exactly `n` iterations. -/
def TripCount (n : Nat) : Prop :=
  (∀ k < n, (op.entering refs init k).1 < op.info.limit) ∧ ¬ (op.entering refs init n).1 < op.info.limit

/-- The adjoint sweep over `n` iterations, for the adjoint `adj` of the body: last iteration first,
each with what it was entered with. -/
def sweep (adj : ρ → Int → σ → γ → γ) : Nat → γ → γ
  | 0, grad => grad
  | k + 1, grad =>
    sweep adj k (adj refs (op.entering refs init k).1 (op.entering refs init k).2 grad)

@[simp] theorem entering_zero : op.entering refs init 0 = (op.info.start, init) := rfl

theorem entering_succ (k : Nat) :
    op.entering refs init (k + 1) = op.bodyStep refs (op.entering refs init k) :=
  Function.iterate_succ_apply' _ _ _

@[simp] theorem entering_fst (k : Nat) :
    (op.entering refs init k).1 = op.info.start + k * op.info.step := by
  induction k with
  | zero => simp
  | succ k ih =>
    rw [entering_succ, bodyStep, ih]
    push_cast
    ring

theorem entering_succ_snd (k : Nat) : (op.entering refs init (k + 1)).2 =
      op.body refs (op.info.start + k * op.info.step) (op.entering refs init k).2 := by
  rw [entering_succ, bodyStep, entering_fst]

variable {n : Nat}

theorem returns_entering (hcount : op.TripCount refs init n) :
    Loop.Returns (fun s : Int × σ => decide (s.1 < op.info.limit))
      (fun s => some (op.bodyStep refs s)) (op.info.start, init) (op.entering refs init n) := by
  refine Loop.returns_of_path (op.entering refs init) (fun k hk => ⟨?_, ?_⟩) ?_
  · exact decide_eq_true (hcount.1 k hk)
  · rw [entering_succ]
  · exact decide_eq_false hcount.2

theorem tripCount_iff :
    op.TripCount refs init n ↔ (∀ k < n, op.info.start + k * op.info.step < op.info.limit) ∧
        op.info.limit ≤ op.info.start + n * op.info.step := by
  simp only [TripCount, entering_fst, not_lt]

theorem TripCount.step_pos (hcount : op.TripCount refs init n) (hn : 0 < n) : 0 < op.info.step := by
  obtain ⟨hbelow, hend⟩ := (op.tripCount_iff refs init).mp hcount
  have hfirst := hbelow 0 hn
  by_contra hstep
  have hdown : (n : Int) * op.info.step ≤ 0 :=
    mul_nonpos_of_nonneg_of_nonpos (by omega) (by omega)
  simp only [Nat.cast_zero, zero_mul, add_zero] at hfirst
  omega

theorem TripCount.getConstantNumIters (hcount : op.TripCount refs init n) (hn : 0 < n) :
    op.info.getConstantNumIters = some (n : Int) := by
  have hstep := hcount.step_pos op refs init hn
  obtain ⟨hbelow, hend⟩ := (op.tripCount_iff refs init).mp hcount
  have hlast := hbelow (n - 1) (by omega)
  rw [show ((n - 1 : Nat) : Int) = n - 1 by omega, sub_mul, one_mul] at hlast
  have hfirst := hbelow 0 hn
  simp only [Nat.cast_zero, zero_mul, add_zero] at hfirst
  rw [WhileLoopInfo.getConstantNumIters, if_neg (by omega), if_neg (by omega), if_neg (by omega),
    Int.tdiv_eq_ediv_of_nonneg (by omega)]
  refine congrArg some (le_antisymm ?_ ?_)
  · refine Int.lt_add_one_iff.mp (Int.ediv_lt_of_lt_mul hstep ?_)
    rw [add_mul, one_mul]
    omega
  · refine Int.le_ediv_of_mul_le hstep ?_
    omega

end WhileOp

end EnzymeJax
