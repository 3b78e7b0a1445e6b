import EnzymeJax.WhileLoopInfo

/-!
# How a while loop is reversed

The reverse-mode rule of a while loop picks one of four schemes from the loop's bounds and attributes. The period
of the periodic scheme and the budget of the binomial one are numbers.
-/

namespace EnzymeJax

/-- The `enzymexla` attributes that select a checkpointing scheme. -/
structure CheckpointAttrs where
  enableCheckpointing : Option Bool
  checkpointPeriod : Option Int
  binomialCheckpointing : Bool

def CheckpointAttrs.givenPeriod (attrs : CheckpointAttrs) : Option Int :=
  attrs.checkpointPeriod.filter (0 < ·)

inductive ReverseMode where
  | constant
  | constantCheckpointing
  | constantBinomial
  | unknown
  deriving DecidableEq

structure ReverseModeInfo where
  mode : ReverseMode
  checkpointPeriod : Int
  deriving DecidableEq

def binomialSentinelBudget : Int := -1

/-- The scheme for a loop whose bounds were recognised, `none` where the trip count the default
period needs divides by zero. -/
def getReverseMode (info : WhileLoopInfo) (attrs : CheckpointAttrs) : Option ReverseModeInfo :=
  if info.isConstant then
    if attrs.enableCheckpointing = some true then
      match attrs.givenPeriod with
      | some period =>
        some ⟨if attrs.binomialCheckpointing then .constantBinomial else .constantCheckpointing, period⟩
      | none =>
        if attrs.binomialCheckpointing then some ⟨.constantBinomial, binomialSentinelBudget⟩
        else info.getConstantNumIters.map fun numIters =>
          ⟨.constantCheckpointing, Nat.sqrt numIters.toNat⟩
    else
      match attrs.givenPeriod with
      | some period => some ⟨.constantCheckpointing, period⟩
      | none => some ⟨.constant, 0⟩
  else if attrs.binomialCheckpointing ∧ attrs.enableCheckpointing = some true then
    some ⟨.constantBinomial, attrs.givenPeriod.getD binomialSentinelBudget⟩
  else some ⟨.unknown, 0⟩

variable {attrs : CheckpointAttrs} {period : Int} {info : WhileLoopInfo}

theorem CheckpointAttrs.givenPeriod_pos (h : attrs.givenPeriod = some period) : 0 < period := by
  obtain ⟨_, hpos⟩ := Option.filter_eq_some_iff.mp h
  exact of_decide_eq_true hpos

theorem checkpointPeriod_nonneg (h : getReverseMode info attrs = some ⟨.constantCheckpointing, period⟩) :
    0 ≤ period := by
  unfold getReverseMode at h
  split at h
  · split at h
    · split at h
      · rename_i given hgiven
        obtain ⟨-, rfl⟩ := by simpa using h
        exact (CheckpointAttrs.givenPeriod_pos hgiven).le
      · split at h
        · simp at h
        · obtain ⟨numIters, -, hmode⟩ := Option.map_eq_some_iff.mp h
          obtain rfl := (ReverseModeInfo.mk.inj hmode).2
          exact Int.natCast_nonneg _
    · split at h
      · rename_i given hgiven
        obtain rfl : given = period := by simpa using h
        exact (CheckpointAttrs.givenPeriod_pos hgiven).le
      · simp at h
  · split at h <;> simp at h

theorem checkpointPeriod_pos {numIters : Int} (h : getReverseMode info attrs = some ⟨.constantCheckpointing, period⟩)
    (hiters : info.getConstantNumIters = some numIters) (hpos : 0 < numIters) : 0 < period := by
  unfold getReverseMode at h
  split at h
  · split at h
    · split at h
      · rename_i given hgiven
        obtain ⟨-, rfl⟩ := by simpa using h
        exact CheckpointAttrs.givenPeriod_pos hgiven
      · split at h
        · simp at h
        · rw [hiters, Option.map_some] at h
          obtain rfl := (ReverseModeInfo.mk.inj (Option.some.inj h)).2
          exact Int.natCast_pos.mpr (Nat.sqrt_pos.mpr (by omega))
    · split at h
      · rename_i given hgiven
        obtain rfl : given = period := by simpa using h
        exact CheckpointAttrs.givenPeriod_pos hgiven
      · simp at h
  · split at h <;> simp at h

end EnzymeJax
