import EnzymeJax.Library.Gather
import EnzymeJax.Scf.Counted

/-!
# While loops to counted loops

The new loop does what the while loop does where its range is the one of the counter, and no guard excludes `after`.
Without side effects in `before` it ends an evaluation early: its results are those of the last iteration.
-/

namespace EnzymeJax

namespace Scf

namespace MoveWhileToFor

open List Option

variable {W D : Type} {loop : WhileOp W D} {outsideOps : List (Op W D)} {env : Env D} {helper : WhileToForHelper}
  {lookThrough : Option Value} {uninitialized : Int} {w : W} {n : Nat} {start step bound : Int}

/-- A counter that is stepped by a value from outside, and does not wrap before the last evaluation. -/
structure Counts (loop : WhileOp W D) (env : Env D) (helper : WhileToForHelper) (w : W) (n : Nat)
    (start step bound : Int) : Prop where
  step_outside : loop.SeenOutside helper.stepping.step
  start_eq : loop.inits[helper.stepping.indVar]?.map env = some (.int start)
  step_eq : env helper.stepping.step = .int step
  bound_eq : (loop.evaluate env (loop.entering env w 0)).2 helper.cmpEnd = .int bound
  unwrapped : helper.IsUnwrapped start step bound n

/-- The condition under which the new loop does what the while loop does, on the results that are used. -/
structure Meets (loop : WhileOp W D) (outsideOps : List (Op W D)) (env : Env D) (helper : WhileToForHelper)
    (lookThrough : Option Value) (w : W) (n : Nat) (start step bound : Int) (used : List Nat) : Prop where
  directed : helper.Directed start step bound
  fits : helper.Fits start step bound (doWhile loop helper)
  -- a branch that adds something may not be taken
  stepped : loop.YieldedByIf outsideOps helper.stepping.indVar → ∀ k ≤ n,
    (loop.entering env w k).2[helper.stepping.indVar]? = some (.int (helper.stepping.type.wrap (start + k * step)))
  -- only an upper bound is moved, whatever its operation does besides
  movable : loop.isInside helper.cmpEnd = true → helper.isUp step = true ∧
    ∃ op, definingOp (visibleOps loop outsideOps) helper.cmpEnd = some op ∧ op.isPure = true ∧
      ∀ v ∈ op.uses, loop.SeenOutside v
  -- the guard of a negative step is the other way round
  guard : guarded loop helper lookThrough = true → step < 0 → n = 0 ∧
    (doWhile loop helper = true → helper.lower start step bound ≤ helper.upper start step bound ∨
      ¬loop.FlagTrue env lookThrough (loop.entering env w 0))
  -- the evaluation that ends the loop is left out
  results : doWhile loop helper = false →
    helper.predicate.holds helper.cmpIOp.type (helper.compared start step n) bound = false → ∀ i ∈ used, (match n with
        | 0 => (loop.condArgs[i]?.bind (newArg loop outsideOps)).map (Init.eval env)
        | n + 1 => (loop.passed env (loop.entering env w n)).2[i]?) = (loop.passed env (loop.entering env w n)).2[i]?

/-! ### Values in front of the loop -/

section

variable (hw : loop.WellFormed outsideOps) (hholds : WhileOp.Holds outsideOps env)

include hw hholds

theorem eval_outside {v r : Value} {p : Prim D} {as : List Value} (hv : loop.SeenOutside v)
    (hdef : definingOp (visibleOps loop outsideOps) v = some (.prim p r as)) : env v = p.eval (as.map env) := by
  obtain ⟨hmem, hres⟩ := mem_of_definingOp hdef
  obtain rfl := mem_singleton.mp hres
  rcases mem_append.mp hmem with hmem | hmem
  · rcases mem_append.mp hmem with hmem | hmem
    · exact hholds p v as hmem
    · exact absurd hres ((hw.seenAfter hv).2.1 _ hmem)
  · exact absurd hres ((hw.seenBefore hv).2.1 _ hmem)

theorem eval_matchConstant {v : Value} {c : Int}
    (hv : loop.SeenOutside v) (h : matchConstant (visibleOps loop outsideOps) v = some c) : env v = .int c := by
  unfold matchConstant at h
  split at h
  · rename_i hdef
    cases h
    exact eval_outside hw hholds hv hdef
  · cases h

theorem neg_of_isNegativeConstant {v : Value} {c : Int} (hv : loop.SeenOutside v) (hc : env v = .int c)
    (h : isNegativeConstant (visibleOps loop outsideOps) v = true) : c < 0 := by
  unfold isNegativeConstant at h
  split at h
  · rename_i hdef
    have hval := (eval_outside hw hholds hv hdef).symm.trans hc
    obtain rfl := Val.int.inj hval
    exact of_decide_eq_true h
  · cases h

end

theorem exists_front (env : Env D) (w : W) (hw : loop.WellFormed outsideOps)
    (hinside : helper.ub_cloneMove = loop.isInside helper.cmpEnd) (hcmpEnd : loop.SeenBefore helper.cmpEnd)
    (hmovable : loop.isInside helper.cmpEnd = true → helper.ub = helper.cmpEnd ∧
      ∃ op, definingOp (visibleOps loop outsideOps) helper.cmpEnd = some op ∧ op.isPure = true ∧
        ∀ v ∈ op.uses, loop.SeenOutside v) :
    ∃ front, runAll (moved loop outsideOps helper).toList (w, env) = (w, front) ∧
      Front loop env front (remainingOps loop helper) ∧
      isOutside loop (moved loop outsideOps helper) helper.cmpEnd = true ∧
      ∀ s : W × List (Val D), (loop.evaluate env s).2 helper.cmpEnd = front helper.cmpEnd := by
  cases hmoved : loop.isInside helper.cmpEnd with
  | false =>
    have hnone : moved loop outsideOps helper = none := by
      rw [moved, hinside, hmoved, if_neg Bool.false_ne_true]
    have hremaining : remainingOps loop helper = loop.beforeOps := by
      rw [remainingOps, hinside, hmoved]
      exact filter_eq_self.mpr fun _ _ => rfl
    rw [hnone, hremaining]
    refine ⟨env, rfl, Front.refl loop env, ?_, fun s => hw.evaluate_outside ⟨hmoved, hcmpEnd.2.2⟩⟩
    rw [isOutside, hmoved]
    rfl
  | true =>
    obtain ⟨hub, op, hdef, hpure, huses⟩ := hmovable hmoved
    obtain ⟨hmem, hres⟩ := mem_of_definingOp hdef
    have hbefore : op ∈ loop.beforeOps := by
      rcases mem_append.mp hmem with hmem | hmem
      · rcases mem_append.mp hmem with hmem | hmem
        · have houtside := (hw.outside_results op hmem _ hres).1
          rw [hmoved] at houtside
          cases houtside
        · exact hmem
      · exact absurd hres (hcmpEnd.2.1 op hmem)
    have hsome : moved loop outsideOps helper = some op := by
      rw [moved, hinside, hmoved, if_pos rfl, hub, hdef]
    have hremaining : remainingOps loop helper = loop.beforeOps.filter fun o => !decide (helper.cmpEnd ∈ o.results) := by
      rw [remainingOps, hinside, hmoved, hub]
      rfl
    have hfront := Front.of_moved hw hbefore hres hpure huses env w
    rw [hsome, hremaining]
    refine ⟨(op.run (w, env)).2, Prod.ext (Op.run_fst_of_isPure op (w, env) hpure) rfl, hfront, ?_, fun s => ?_⟩
    · rw [isOutside, hmoved]
      exact decide_eq_true hres
    · obtain ⟨id, hid⟩ := hw.before_results op hbefore _ hres
      rw [← Prod.mk.eta (p := s), ← hfront.evaluate_eq, runAll_frame, hid]
      · rfl
      · intro o ho hmem
        have hnot := (mem_filter.mp ho).2
        simp [hmem] at hnot

/-! ### The evaluations -/

section

variable (hw : loop.WellFormed outsideOps) (hholds : WhileOp.Holds outsideOps env)
  (hlegal : Legal loop outsideOps lookThrough helper)
  (hcondition : Condition loop env lookThrough helper.cmpIOp)
  (hcounts : Counts loop env helper w n start step bound)

include hw hholds hlegal hcondition hcounts

theorem counter_entering (hstepped : loop.YieldedByIf outsideOps helper.stepping.indVar → ∀ k ≤ n,
      (loop.entering env w k).2[helper.stepping.indVar]? = some (.int (helper.stepping.type.wrap (start + k * step))))
    (hbound : ∀ s : W × List (Val D), (loop.evaluate env s).2 helper.cmpEnd = .int bound)
    (hcontinues : ∀ k < n, loop.continues env (loop.entering env w k) = true) {k : Nat} (hk : k ≤ n) :
    (loop.entering env w k).2[helper.stepping.indVar]? = some (.int (helper.stepping.type.wrap (start + k * step))) := by
  by_cases hif : loop.YieldedByIf outsideOps helper.stepping.indVar
  · exact hstepped hif k hk
  · have hadvances := hlegal.advances hcondition hw hholds hcounts.step_outside hif
    induction k with
    | zero =>
      rw [Nat.cast_zero, zero_mul, Int.add_zero, hcounts.unwrapped.start_fits, ← hcounts.start_eq]
      exact getElem?_map ..
    | succ k ih =>
      have hctr := ih (Nat.le_of_succ_le hk)
      obtain ⟨hflag, -⟩ := (hlegal.continues_iff hcondition hw hholds hcounts.step_outside hctr hcounts.step_eq
        (hbound _)).mp (hcontinues k hk)
      obtain ⟨y, hy, hval⟩ := hadvances _ _ _ hflag hctr hcounts.step_eq
      rw [entering_succ, WhileOp.next, getElem?_map, hy, map_some, hval, IntType.wrap_wrap_add]
      push_cast
      rw [add_mul, one_mul, add_assoc]

theorem continues_iff_compared (hbound : ∀ s : W × List (Val D), (loop.evaluate env s).2 helper.cmpEnd = .int bound)
    {k : Nat} (hctr : (loop.entering env w k).2[helper.stepping.indVar]? =
      some (.int (helper.stepping.type.wrap (start + k * step)))) :
    loop.continues env (loop.entering env w k) = true ↔ loop.FlagTrue env lookThrough (loop.entering env w k) ∧
      helper.predicate.holds helper.cmpIOp.type (helper.compared start step k) bound = true := by
  have hcompared : (if helper.comparingUpdated then helper.stepping.type.wrap (helper.stepping.type.wrap (start + k * step)
      + step) else helper.stepping.type.wrap (start + k * step)) = helper.compared start step k := by
    rw [WhileToForHelper.compared, WhileToForHelper.offset]
    split
    · rw [IntType.wrap_wrap_add, add_mul, one_mul, add_assoc]
    · rw [Int.add_zero]
  rw [hlegal.continues_iff hcondition hw hholds hcounts.step_outside hctr hcounts.step_eq (hbound _), hcompared]

end

/-! ### The new loop -/

variable {newArgs : List Init} {front : Env D} {cmpStart : Value} {before : List (Op Nat Unit)}

theorem getElem?_newArgs (h : Tensor.allSome (loop.condArgs.map (newArg loop outsideOps)) = some newArgs)
    (i : Nat) : newArgs[i]? = loop.condArgs[i]?.bind (newArg loop outsideOps) := by
  have hmap := congrArg (·[i]?) (Tensor.allSome_eq_some_iff.mp h)
  simp only [getElem?_map] at hmap
  cases hi : loop.condArgs[i]? with
  | none =>
    rw [hi] at hmap
    exact map_eq_none_iff.mp hmap.symm
  | some v =>
    rw [hi] at hmap
    obtain ⟨x, hx, hval⟩ := map_eq_some_iff.mp hmap.symm
    rw [hx, bind_some, ← hval]

theorem eval_newArg {arg : Value} {init : Init} (hinits : ∀ v ∈ loop.inits, front v = env v)
    (h : newArg loop outsideOps arg = some init) : init.eval front = init.eval env := by
  have hval : ∀ {k : Nat}, loop.inits[k]?.map Init.value = some init → init.eval front = init.eval env := by
    intro k hk
    obtain ⟨v, hv, rfl⟩ := map_eq_some_iff.mp hk
    exact hinits v (mem_of_getElem? hv)
  unfold newArg at h
  split at h
  · exact hval h
  · cases h
    rfl
  · split at h
    · split at h
      · exact hval h
      · exact hval h
      · cases h
        rfl
    · cases h
      rfl

theorem counts_of_checked (hw : loop.WellFormed outsideOps) (hholds : WhileOp.Holds outsideOps env)
    (hchecked : Checked loop outsideOps helper cmpStart)
    (hcounts : Counts loop env helper w n start step bound) (hdirected : helper.Directed start step bound) :
    if helper.isUp step then helper.CountsUp cmpStart else helper.CountsDown cmpStart := by
  have hconstant : helper.predicate = .ne →
      matchConstant (visibleOps loop outsideOps) helper.stepping.step = some step := by
    intro hne
    obtain ⟨c, hc⟩ := hchecked.constant hne
    have hval := (eval_matchConstant hw hholds hcounts.step_outside hc).symm.trans hcounts.step_eq
    rw [hc, Val.int.inj hval]
  rcases hchecked.direction with ⟨hkind, hup⟩ | ⟨hkind, hdown⟩
  · have hisUp : helper.isUp step = true := by
      rw [WhileToForHelper.isUp, Bool.or_eq_true, Bool.and_eq_true]
      rcases hkind with hless | ⟨hne, hpos⟩
      · exact .inl hless
      · exact .inr ⟨decide_eq_true hne, decide_eq_true ((hdirected.unequal hne).1.mp (hpos step (hconstant hne)))⟩
    rw [if_pos hisUp]
    exact hup
  · have hisUp : helper.isUp step = false := by
      rw [WhileToForHelper.isUp, Bool.or_eq_false_iff, Bool.and_eq_false_iff]
      rcases hkind with hgreater | ⟨hne, hneg⟩
      · cases hp : helper.predicate <;> simp [hp, CmpIPredicate.isLess, CmpIPredicate.isGreater] at hgreater ⊢
      · refine ⟨by rw [hne]; rfl, .inr (decide_eq_false fun hpos => ?_)⟩
        exact absurd ((hdirected.unequal hne).1.mpr hpos) (not_lt.mpr (hneg step (hconstant hne)).le)
    rw [hisUp, if_neg Bool.false_ne_true]
    exact hdown

theorem run_forOp {moved : Option (Op W D)}
    (hreads : helper.Reads (isOutside loop moved) front cmpStart start step bound)
    (hcounts : if helper.isUp step then helper.CountsUp cmpStart else helper.CountsDown cmpStart)
    (hunwrapped : helper.IsUnwrapped start step bound n) (hdirected : helper.Directed start step bound)
    (hfits : helper.Fits start step bound (doWhile loop helper)) (hnegative : helper.negativeStep = true → step < 0) :
    (forOp loop helper lookThrough newArgs).run front (isOutside loop moved) w =
      some ((forOp loop helper lookThrough newArgs).entering front (helper.lower start step bound) |step|
        (helper.upper start step bound) w
        (tripCount (helper.lower start step bound) (helper.upper start step bound) |step| +
          if doWhile loop helper then 1 else 0)) := by
  obtain ⟨hlower, hupper, hstride, hlowerType, hupperType, hstrideType⟩ :=
    WhileToForHelper.eval_prepareFor hreads hcounts hunwrapped hdirected hfits hnegative
  have hstridePos : 0 < |step| := abs_pos.mpr hdirected.nonzero
  have hlb : (forOp loop helper lookThrough newArgs).lowerBound = helper.prepareFor.1 := rfl
  have hbound : (forOp loop helper lookThrough newArgs).bound = helper.prepareFor.2.1 := rfl
  have hstep : (forOp loop helper lookThrough newArgs).step = helper.prepareFor.2.2 := rfl
  -- the last iteration is one more
  have hub : (forOp loop helper lookThrough newArgs).upperBound.eval (isOutside loop moved) front =
        some (if doWhile loop helper then max (helper.upper start step bound) (helper.lower start step bound) + |step|
          else helper.upper start step bound) ∧
      (forOp loop helper lookThrough newArgs).upperBound.type = helper.rangeType := by
    have heq : (forOp loop helper lookThrough newArgs).upperBound = if doWhile loop helper
        then (Expr.maxSI helper.prepareFor.2.1 helper.prepareFor.1).addI helper.prepareFor.2.2
        else helper.prepareFor.2.1 := rfl
    rw [heq]
    split
    · rename_i hdoWhile
      have hmax : (Expr.maxSI helper.prepareFor.2.1 helper.prepareFor.1).eval (isOutside loop moved) front =
          some (max (helper.upper start step bound) (helper.lower start step bound)) := by
        rw [Expr.eval, if_pos (hupperType.trans hlowerType.symm), hupper, hlower]
        rfl
      refine ⟨?_, hupperType⟩
      rw [WhileToForHelper.eval_addI hmax hstride (hupperType.trans hstrideType.symm)]
      exact congrArg some ((congrArg (IntType.wrap · _) hupperType).trans (hfits.last hdoWhile))
    · exact ⟨hupper, hupperType⟩
  have hpositive : 0 < |step| ∧
      (forOp loop helper lookThrough newArgs).lowerBound.type = (forOp loop helper lookThrough newArgs).upperBound.type ∧
      (forOp loop helper lookThrough newArgs).lowerBound.type = (forOp loop helper lookThrough newArgs).step.type :=
    ⟨hstridePos, hlowerType.trans hub.2.symm, hlowerType.trans hstrideType.symm⟩
  rw [ForOp.run, hub.1]
  rw [← hlb] at hlower
  rw [← hbound] at hupper
  rw [← hstep] at hstride
  rw [hlower, hupper, hstride]
  refine (if_pos hpositive).trans (congrArg some ?_)
  split
  · rw [tripCount_extended hstridePos]
  · rfl

theorem not_flagTrue {s : W × List (Val D)} (h : ¬loop.FlagTrue env lookThrough s) :
    ∃ l, lookThrough = some l ∧ ((loop.evaluate env s).2 l).isTrue = false := by
  rw [WhileOp.FlagTrue, not_forall] at h
  obtain ⟨l, h⟩ := h
  obtain ⟨hl, hne⟩ := Classical.not_imp.mp h
  exact ⟨l, hl, Bool.eq_false_iff.mpr fun htrue => hne (Val.isTrue_iff.mp htrue)⟩

theorem results_of_done {flags : List (Val D)} {s s' : W × List (Val D)} (h : Done loop env lookThrough s flags s') :
    (s'.1, (s'.2.drop loop.inits.length).take loop.condArgs.length) = loop.passed env s := by
  obtain ⟨w', xs'⟩ := s'
  obtain ⟨hworld, -, xs, hxs, heq⟩ := h
  dsimp only at hworld heq
  have hlen : (loop.passed env s).2.length = loop.condArgs.length := length_map _
  rw [hworld, heq, append_assoc, drop_left' hxs, take_left' hlen]

theorem entering_forOp (hw : loop.WellFormed outsideOps) (hfront : Front loop env front (remainingOps loop helper))
    (hinits : ∀ v ∈ loop.inits, front v = env v) (hnonempty : loop.inits ≠ [])
    (hnewArgs : newArgs.length = loop.condArgs.length) (hlook : ∀ l, lookThrough = some l → loop.SeenBefore l)
    {lb ub stride : Int} (hstride : 0 < stride)
    (hflag : ∀ k < n, loop.FlagTrue env lookThrough (loop.entering env w k)) (hle : n ≤ tripCount lb ub stride)
    (hexit : loop.FlagTrue env lookThrough (loop.entering env w n) → n = tripCount lb ub stride)
    (hguard : guarded loop helper lookThrough = true → helper.negativeStep = true → n = 0 ∧
      (doWhile loop helper = true → lb ≤ ub ∨ ¬loop.FlagTrue env lookThrough (loop.entering env w 0))) :
    let total := tripCount lb ub stride + if doWhile loop helper then 1 else 0
    let s := (forOp loop helper lookThrough newArgs).entering front lb stride ub w total
    (s.1, (s.2.drop loop.inits.length).take loop.condArgs.length) =
      if doWhile loop helper = false ∧ n = tripCount lb ub stride
      then ((loop.passed env (loop.entering env w n)).1, slotsAt loop env front newArgs w n)
      else loop.passed env (loop.entering env w n) := by
  have hbefore : guarded loop helper lookThrough = true → ∀ k < n, (if helper.negativeStep
      then decide (ub < lb + k * stride) else decide (lb + k * stride < ub)) = true := by
    intro hguarded k hk
    cases hneg : helper.negativeStep with
    | true =>
      obtain ⟨rfl, -⟩ := hguard hguarded hneg
      exact absurd hk (Nat.not_lt_zero k)
    | false =>
      exact decide_eq_true ((lt_tripCount hstride k).mp (lt_of_lt_of_le hk hle))
  have hcontinues := entering_of_continues hw hfront hinits hnewArgs hlook hflag hbefore
  dsimp only
  by_cases hlast : doWhile loop helper = false ∧ n = tripCount lb ub stride
  · rw [if_pos hlast]
    obtain ⟨hdoWhile, hn⟩ := hlast
    rw [hdoWhile, if_neg Bool.false_ne_true, add_zero, ← hn, hcontinues]
    have hpure : Op.allPure (remainingOps loop helper) = true := by
      rwa [doWhile, Bool.not_eq_false'] at hdoWhile
    have hworld : (loop.passed env (loop.entering env w n)).1 = (loop.entering env w n).1 := by
      rw [WhileOp.passed, ← Prod.mk.eta (p := loop.entering env w n), ← hfront.evaluate_eq]
      exact runAll_fst_of_allPure _ _ hpure
    rw [hworld, append_assoc, drop_left' (length_entering hw n), take_left' (length_slotsAt hnewArgs n)]
  · rw [if_neg hlast]
    have htotal : n + 1 ≤ tripCount lb ub stride + if doWhile loop helper then 1 else 0 := by
      cases hdoWhile : doWhile loop helper with
      | true =>
        rw [if_pos rfl]
        omega
      | false =>
        have hne : n ≠ tripCount lb ub stride := fun heq => hlast ⟨hdoWhile, heq⟩
        rw [if_neg Bool.false_ne_true]
        omega
    -- in the last evaluation the guard is false, or there is nothing to guard
    have hguardValue : guarded loop helper lookThrough = true → guardValue helper.negativeStep (lb + n * stride) ub
        (lookThrough.toList.map (loop.evaluate env (loop.entering env w n)).2) = false := by
      intro hguarded
      by_cases htrue : loop.FlagTrue env lookThrough (loop.entering env w n)
      · have hn := hexit htrue
        rw [guardValue, Bool.and_eq_false_iff]
        left
        cases hneg : helper.negativeStep with
        | true =>
          obtain ⟨rfl, hdirection⟩ := hguard hguarded hneg
          have hdoWhile : doWhile loop helper = true := by
            by_contra hdoWhile
            exact hlast ⟨Bool.eq_false_iff.mpr hdoWhile, hn⟩
          have hle := (hdirection hdoWhile).resolve_right (not_not.mpr htrue)
          rw [if_pos rfl, Nat.cast_zero, zero_mul, Int.add_zero]
          exact decide_eq_false (not_lt.mpr hle)
        | false =>
          rw [if_neg Bool.false_ne_true]
          refine decide_eq_false fun hlt => ?_
          exact absurd ((lt_tripCount hstride n).mpr hlt) (by omega)
      · obtain ⟨l, rfl, hfalse⟩ := not_flagTrue htrue
        rw [guardValue, Bool.and_eq_false_iff]
        right
        change (Val.isTrue _ && true) = false
        rw [hfalse, Bool.false_and]
    have hpure : guarded loop helper lookThrough = false → Op.allPure loop.afterOps = true := by
      intro hguarded
      rw [guarded, Bool.or_eq_false_iff] at hguarded
      have hnone : lookThrough = none := not_isSome_iff_eq_none.mp (Bool.eq_false_iff.mp hguarded.1)
      have htrue : loop.FlagTrue env lookThrough (loop.entering env w n) := by
        intro l hl
        rw [hnone] at hl
        cases hl
      have hdoWhile : doWhile loop helper = true := by
        by_contra hdoWhile
        exact hlast ⟨Bool.eq_false_iff.mpr hdoWhile, hexit htrue⟩
      simpa [hdoWhile, hnonempty] using hguarded.2
    have hslots : (slotsAt loop env front newArgs w n).length = loop.condArgs.length := length_slotsAt hnewArgs n
    have hdone : Done loop env lookThrough (loop.entering env w n)
        (lookThrough.toList.map (loop.evaluate env (loop.entering env w n)).2)
        ((forOp loop helper lookThrough newArgs).entering front lb stride ub w (n + 1)) := by
      rw [ForOp.entering, hcontinues]
      exact done_of_last hw hfront (length_entering hw n) hslots hlook hguardValue hpure
    rcases Nat.eq_or_lt_of_le htotal with heq | hlt
    · rw [← heq]
      exact results_of_done hdone
    · -- more iterations than evaluations: the other condition has ended the while loop
      have hnotTrue : ¬loop.FlagTrue env lookThrough (loop.entering env w n) := by
        intro htrue
        have hn := hexit htrue
        split at hlt
        · omega
        · omega
      obtain ⟨l, hl, hfalse⟩ := not_flagTrue hnotTrue
      have hflagFalse : ((lookThrough.toList.map (loop.evaluate env (loop.entering env w n)).2).headD .poison).isTrue =
          false := by
        rw [hl]
        exact hfalse
      obtain ⟨flags, -, hdone⟩ := done_of_le hw hfront hl hflagFalse hdone htotal
      exact results_of_done hdone

/-! ### The rewrite -/

/-- The new loop does what the while loop does, on the results that are used. -/
theorem run_of_meets {new : Option (Op W D) × ForOp W D} {used : List Nat} (hw : loop.WellFormed outsideOps)
    (hholds : WhileOp.Holds outsideOps env) (hnew : matchAndRewrite loop outsideOps uninitialized = some new)
    (hlegal : legalHelper loop outsideOps uninitialized = some (helper, lookThrough))
    (hexits : loop.ExitsAfter env w n) (hcounts : Counts loop env helper w n start step bound)
    (hmeets : Meets loop outsideOps env helper lookThrough w n start step bound used) :
    ∃ xs, run loop new w env = some ((loop.passed env (loop.entering env w n)).1, xs) ∧
      ∀ i ∈ used, xs[i]? = (loop.passed env (loop.entering env w n)).2[i]? := by
  obtain ⟨hfound, hcondition⟩ := legalHelper_spec hw hholds hlegal
  obtain ⟨cmpStart, hchecked⟩ := hfound.checked
  rw [matchAndRewrite, hlegal, bind_some] at hnew
  obtain ⟨newArgs, hnewArgs, rfl⟩ := map_eq_some_iff.mp hnew
  have hdirected := hmeets.directed
  have hflags := counts_of_checked hw hholds hchecked hcounts hdirected
  have hnegative : helper.negativeStep = true → step < 0 := by
    rw [hchecked.negativeStep_eq]
    exact neg_of_isNegativeConstant hw hholds hcounts.step_outside hcounts.step_eq
  have hcmpEnd : loop.SeenBefore helper.cmpEnd := by
    rw [WhileToForHelper.cmpEnd]
    split
    · exact hcondition.lhs_seen
    · exact hcondition.rhs_seen
  obtain ⟨front, hrun, hfront, hboundOutside, hsame⟩ := exists_front env w hw hchecked.ub_cloneMove_eq
    hcmpEnd fun hinside => by
      obtain ⟨hup, hop⟩ := hmeets.movable hinside
      rw [if_pos hup] at hflags
      exact ⟨hflags.ub, hop⟩
  have hbound : ∀ s : W × List (Val D), (loop.evaluate env s).2 helper.cmpEnd = .int bound := fun s =>
    ((hsame s).trans (hsame _).symm).trans hcounts.bound_eq
  have hagree : ∀ {v}, loop.SeenOutside v → front v = env v := fun hv => hfront.agree _ (hw.seenAfter hv).2.1
  have houtside : ∀ {v}, loop.SeenOutside v → isOutside loop (moved loop outsideOps helper) v = true := by
    intro v hv
    rw [isOutside, hv.1]
    rfl
  have hcmpStart : loop.SeenOutside cmpStart := hw.inits_outside _ (mem_of_getElem? hchecked.cmpStart_eq)
  have hstartValue : env cmpStart = .int start := by
    have hstart := hcounts.start_eq
    rw [hchecked.cmpStart_eq] at hstart
    exact some.inj hstart
  have hreads : helper.Reads (isOutside loop (moved loop outsideOps helper)) front cmpStart start step bound :=
    { start_outside := houtside hcmpStart
      step_outside := houtside hcounts.step_outside
      bound_outside := hboundOutside
      start_eq := (hagree hcmpStart).trans hstartValue
      step_eq := (hagree hcounts.step_outside).trans hcounts.step_eq
      bound_eq := (hsame (loop.entering env w 0)).symm.trans hcounts.bound_eq }
  -- the evaluations, and the range
  have hcompared : ∀ k ≤ n, (loop.continues env (loop.entering env w k) = true ↔
      loop.FlagTrue env lookThrough (loop.entering env w k) ∧
        helper.predicate.holds helper.cmpIOp.type (helper.compared start step k) bound = true) := fun k hk =>
    continues_iff_compared hw hholds hfound hcondition hcounts hbound
      (counter_entering hw hholds hfound hcondition hcounts hmeets.stepped hbound hexits.1 hk)
  have hlt : ∀ k ≤ n, (helper.predicate.holds helper.cmpIOp.type (helper.compared start step k) bound = true ↔
      k < tripCount (helper.lower start step bound) (helper.upper start step bound) |step|) := fun k hk =>
    hdirected.holds_iff_lt hcounts.unwrapped hfound.predicate_ne hnegative
      (fun j hj => ((hcompared j hj.le).mp (hexits.1 j hj)).2) hk
  have hle : n ≤ tripCount (helper.lower start step bound) (helper.upper start step bound) |step| := by
    by_contra hgt
    have hlast := hexits.1 _ (not_le.mp hgt)
    exact lt_irrefl _ ((hlt _ (not_le.mp hgt).le).mp ((hcompared _ (not_le.mp hgt).le).mp hlast).2)
  have hexit : loop.FlagTrue env lookThrough (loop.entering env w n) →
      n = tripCount (helper.lower start step bound) (helper.upper start step bound) |step| := by
    intro htrue
    by_contra hne
    have hcontinue := (hcompared n le_rfl).mpr ⟨htrue, (hlt n le_rfl).mpr (lt_of_le_of_ne hle hne)⟩
    rw [hexits.2] at hcontinue
    cases hcontinue
  have hlength : newArgs.length = loop.condArgs.length := by
    have h := congrArg List.length (Tensor.allSome_eq_some_iff.mp hnewArgs)
    rw [length_map, length_map] at h
    exact h.symm
  have hnonempty : loop.inits ≠ [] := by
    intro hnil
    have hget := hchecked.cmpStart_eq
    rw [hnil] at hget
    cases hget
  have hinits : ∀ v ∈ loop.inits, front v = env v := fun v hv => hagree (hw.inits_outside v hv)
  have hlast := entering_forOp (w := w) hw hfront hinits hnonempty hlength hcondition.seen
    (abs_pos.mpr hdirected.nonzero) (fun k hk => ((hcompared k hk.le).mp (hexits.1 k hk)).1) hle hexit
    fun hguarded hneg => hmeets.guard hguarded (hnegative hneg)
  dsimp only at hlast
  rw [run]
  dsimp only
  rw [hrun, run_forOp hreads hflags hcounts.unwrapped hdirected hmeets.fits hnegative, map_some]
  by_cases hlate : doWhile loop helper = false ∧
      n = tripCount (helper.lower start step bound) (helper.upper start step bound) |step|
  · -- the last evaluation is left out
    rw [if_pos hlate] at hlast
    obtain ⟨hdoWhile, hn⟩ := hlate
    have hfalse : helper.predicate.holds helper.cmpIOp.type (helper.compared start step n) bound = false :=
      Bool.eq_false_iff.mpr fun htrue => lt_irrefl _ (lt_of_le_of_lt hn.ge ((hlt n le_rfl).mp htrue))
    refine ⟨_, congrArg some hlast, fun i hi => ?_⟩
    rw [← hmeets.results hdoWhile hfalse i hi]
    cases n with
    | zero =>
      change (newArgs.map (Init.eval front))[i]? = (loop.condArgs[i]?.bind (newArg loop outsideOps)).map (Init.eval env)
      rw [getElem?_map, getElem?_newArgs hnewArgs]
      refine Option.map_congr fun init hinit => ?_
      obtain ⟨arg, -, harg⟩ := bind_eq_some_iff.mp hinit
      exact eval_newArg hinits harg
    | succ n => rfl
  · rw [if_neg hlate] at hlast
    exact ⟨_, congrArg some hlast, fun _ _ => rfl⟩

/-- From zero up to three, by one. The counter is passed on. -/
def countToThree (before : List (Op Nat Unit)) : WhileOp Nat Unit :=
  { inits := [.result 0]
    beforeOps := before ++ [.prim (.cmpI index .slt) (.result 3) [.arg .before 0, .result 1]]
    condition := .result 3
    condArgs := [.arg .before 0]
    afterOps := [.prim (.addI index) (.result 4) [.arg .after 0, .result 2]]
    yields := [.result 4] }

def constants : List (Op Nat Unit) :=
  [.prim (.constant true (.int 0)) (.result 0) [], .prim (.constant true (.int 3)) (.result 1) [],
    .prim (.constant true (.int 1)) (.result 2) []]

def constantsEnv : Env Unit := (runAll constants (0, fun _ => .poison)).2

/-- The evaluations of the condition are counted. -/
def countEvaluation : Op Nat Unit := .effect [] [] fun w _ => (w + 1, [])

def countToThreeHelper : WhileToForHelper :=
  .up ⟨index, .slt, .arg .before 0, .result 1⟩ false ⟨0, .result 2, index⟩ false false (.result 0) (.result 1) false

theorem countToThree_wellFormed (hbefore : before = [] ∨ before = [countEvaluation]) :
    (countToThree before).WellFormed constants := by
  rcases hbefore with rfl | rfl
  · constructor <;> simp [countToThree, constants, Op.Ordered, Op.results, Op.uses, Op.allUses, WhileOp.SeenBefore,
      WhileOp.SeenAfter, WhileOp.SeenOutside, WhileOp.isInside, Op.allDefines, Op.defines]
  · constructor <;> simp [countToThree, countEvaluation, constants, Op.Ordered, Op.results, Op.uses, Op.allUses,
      WhileOp.SeenBefore, WhileOp.SeenAfter, WhileOp.SeenOutside, WhileOp.isInside, Op.allDefines, Op.defines]

theorem constants_hold : WhileOp.Holds constants constantsEnv := by
  intro p r as hmem
  simp only [constants, mem_cons, Op.prim.injEq, not_mem_nil, or_false] at hmem
  rcases hmem with ⟨rfl, rfl, rfl⟩ | ⟨rfl, rfl, rfl⟩ | ⟨rfl, rfl, rfl⟩
  · decide
  · decide
  · decide

theorem countToThree_counts (hbefore : before = [] ∨ before = [countEvaluation]) :
    Counts (countToThree before) constantsEnv countToThreeHelper 0 3 0 1 3 := by
  have hunwrapped : countToThreeHelper.IsUnwrapped 0 1 3 3 := by
    refine ⟨rfl, rfl, .inl rfl, by decide, by decide, fun k hk => ?_⟩
    interval_cases k <;> decide
  rcases hbefore with rfl | rfl
  · exact ⟨⟨by decide, nofun⟩, by decide, by decide, by decide, hunwrapped⟩
  · exact ⟨⟨by decide, nofun⟩, by decide, by decide, by decide, hunwrapped⟩

theorem countToThree_exits (hbefore : before = [] ∨ before = [countEvaluation]) :
    (countToThree before).ExitsAfter constantsEnv 0 3 := by
  rcases hbefore with rfl | rfl
  · refine ⟨fun k hk => ?_, by decide⟩
    interval_cases k <;> decide
  · refine ⟨fun k hk => ?_, by decide⟩
    interval_cases k <;> decide

theorem run_of_meets_three : ∃ xs, run (countToThree [countEvaluation])
      (none, forOp (countToThree [countEvaluation]) countToThreeHelper none [.value (.result 0)]) 0 constantsEnv =
        some (((countToThree [countEvaluation]).passed constantsEnv
          ((countToThree [countEvaluation]).entering constantsEnv 0 3)).1, xs) ∧
    ∀ i ∈ [0], xs[i]? = ((countToThree [countEvaluation]).passed constantsEnv
      ((countToThree [countEvaluation]).entering constantsEnv 0 3)).2[i]? := by
  have hnew : matchAndRewrite (countToThree [countEvaluation]) constants 0 =
      some (none, forOp (countToThree [countEvaluation]) countToThreeHelper none [.value (.result 0)]) := rfl
  have hmeets : Meets (countToThree [countEvaluation]) constants constantsEnv countToThreeHelper none 0 3 0 1 3 [0] := by
    refine ⟨⟨by decide, by decide, fun _ => by decide, nofun, nofun, nofun⟩, ?_, fun _ k hk => ?_, nofun, nofun, nofun⟩
    · exact ⟨by decide, by decide, by decide, by decide, by decide, by decide, nofun, fun _ => by decide⟩
    · interval_cases k <;> decide
  exact run_of_meets (countToThree_wellFormed (.inr rfl)) constants_hold hnew rfl (countToThree_exits (.inr rfl))
    (countToThree_counts (.inr rfl)) hmeets

/-- The result is the counter of the last iteration, not that of the evaluation which ends the loop. -/
theorem run_ne_passed : (countToThree []).WellFormed constants ∧ WhileOp.Holds constants constantsEnv ∧
    (countToThree []).ExitsAfter constantsEnv 0 3 ∧ Counts (countToThree []) constantsEnv countToThreeHelper 0 3 0 1 3 ∧
    matchAndRewrite (countToThree []) constants 0 =
      some (none, forOp (countToThree []) countToThreeHelper none [.value (.result 0)]) ∧
    run (countToThree []) (none, forOp (countToThree []) countToThreeHelper none [.value (.result 0)]) 0 constantsEnv =
      some (0, [.int 2]) ∧
    (countToThree []).passed constantsEnv ((countToThree []).entering constantsEnv 0 3) = (0, [.int 3]) :=
  ⟨countToThree_wellFormed (.inl rfl), constants_hold, countToThree_exits (.inl rfl), countToThree_counts (.inl rfl), rfl,
    by decide, by decide⟩

end MoveWhileToFor
end Scf
end EnzymeJax
