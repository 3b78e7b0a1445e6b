import EnzymeJax.Scf.Bounds
import EnzymeJax.Scf.Counter

/-!
# What makes a while loop a counted one

The condition is a comparison of the counter, or of the counter after its step, and possibly another condition. The
flags that `checkPredicate` sets say in which direction the range is run through.
-/

namespace EnzymeJax.Scf

open List Option

variable {W D : Type} {loop : WhileOp W D} {outsideOps : List (Op W D)} {cmpIOp : CmpIOp} {compareIndex : Bool}
  {stepping : Stepping} {comparingUpdated : Bool} {uninitialized : Int} {helper : WhileToForHelper}

/-- What `checkPredicate` says of its arguments. -/
structure Checked (loop : WhileOp W D) (outsideOps : List (Op W D)) (helper : WhileToForHelper) (cmpStart : Value) :
    Prop where
  cmpStart_eq : loop.inits[helper.stepping.indVar]? = some cmpStart
  negativeStep_eq : helper.negativeStep = isNegativeConstant (visibleOps loop outsideOps) helper.stepping.step
  ub_cloneMove_eq : helper.ub_cloneMove = loop.isInside helper.cmpEnd
  constant : helper.predicate = .ne → ∃ c, matchConstant (visibleOps loop outsideOps) helper.stepping.step = some c
  direction : ((helper.predicate.isLess = true ∨ helper.predicate = .ne ∧
        ∀ c, matchConstant (visibleOps loop outsideOps) helper.stepping.step = some c → 0 < toCInt c) ∧
      helper.CountsUp cmpStart) ∨
    ((helper.predicate.isGreater = true ∨ helper.predicate = .ne ∧
        ∀ c, matchConstant (visibleOps loop outsideOps) helper.stepping.step = some c → toCInt c < 0) ∧
      helper.CountsDown cmpStart)

variable {cmpEnd cmpStart v side other : Value} {negativeStep ub_cloneMove ub_addOne : Bool}
  {predicate : CmpIPredicate}

theorem cloneMove_eq {b : Bool} (h : cloneMove loop outsideOps cmpIOp cmpEnd = some b) :
    b = loop.isInside cmpEnd := by
  unfold cloneMove at h
  split at h
  · rename_i hinside
    rw [hinside]
    split at h
    · obtain ⟨-, hb⟩ := ite_none_right_eq_some.mp h
      exact (some.inj hb).symm
    · cases h
  · rename_i hinside
    rw [Bool.eq_false_iff.mpr hinside]
    exact (some.inj h).symm

theorem countsUp_of_eq
    (h : helper = { WhileToForHelper.up cmpIOp compareIndex stepping comparingUpdated negativeStep cmpStart cmpEnd
      ub_cloneMove with ub_addOne := ub_addOne }) (hend : helper.cmpEnd = cmpEnd) (hp : helper.predicate = predicate)
    (hone : ub_addOne = (negativeStep || predicate.orEqual)) : helper.CountsUp cmpStart := by
  subst hp h
  exact ⟨rfl, rfl, rfl, rfl, rfl, hend.symm, rfl, hone, rfl⟩

theorem countsDown_of_eq {lb_addOne lb_subStep ub_addStep : Bool}
    (h : helper = { WhileToForHelper.down cmpIOp compareIndex stepping comparingUpdated negativeStep cmpStart cmpEnd
      ub_cloneMove with
        lb_addOne := lb_addOne, lb_subStep := lb_subStep, ub_addOne := ub_addOne, ub_addStep := ub_addStep })
    (hend : helper.cmpEnd = cmpEnd) (hp : helper.predicate = predicate)
    (hone : lb_addOne = (!predicate.orEqual && predicate ≠ .ne))
    (hsub : lb_subStep = (comparingUpdated && predicate = .ne))
    (hone' : ub_addOne = (negativeStep && predicate ≠ .ne))
    (hadd : ub_addStep = (comparingUpdated && predicate ≠ .ne)) : helper.CountsDown cmpStart := by
  subst hp h
  exact ⟨hend.symm, rfl, hone, rfl, hsub, rfl, rfl, hone', hadd⟩

theorem checkPredicate_spec
    (h : checkPredicate loop outsideOps cmpIOp compareIndex stepping comparingUpdated uninitialized = some helper) :
    helper.cmpIOp = cmpIOp ∧ helper.compareIndex = compareIndex ∧ helper.stepping = stepping ∧
      helper.comparingUpdated = comparingUpdated ∧ helper.predicate ≠ .eq ∧
      ∃ cmpStart, Checked loop outsideOps helper cmpStart := by
  obtain ⟨cmpStart, hcmpStart, h⟩ := bind_eq_some_iff.mp h
  obtain ⟨ub_cloneMove, hclone, h⟩ := bind_eq_some_iff.mp h
  have hinside := cloneMove_eq hclone
  dsimp only at h
  generalize hend : (if compareIndex then cmpIOp.lhs else cmpIOp.rhs) = cmpEnd at h hinside
  cases hp : (if compareIndex then swapPredicate cmpIOp.predicate else cmpIOp.predicate) with
  | eq =>
    rw [hp] at h
    cases h
  | ne =>
    rw [hp] at h
    dsimp only at h
    split at h
    · cases h
    · rename_i c hc
      obtain ⟨-, h⟩ := ite_none_right_eq_some.mp h
      have hconstant : ∀ c', matchConstant (visibleOps loop outsideOps) stepping.step = some c' → c' = c :=
        fun c' hc' => some.inj (hc'.symm.trans hc)
      split at h
      · rename_i hneg
        cases h
        refine ⟨rfl, rfl, rfl, rfl, hp.trans_ne nofun, cmpStart, hcmpStart, rfl, hinside.trans (congrArg _ hend.symm),
          fun _ => ⟨c, hc⟩, .inr ⟨.inr ⟨hp, fun c' hc' => (hconstant c' hc').symm ▸ hneg.1⟩, ?_⟩⟩
        exact countsDown_of_eq rfl hend hp rfl (Bool.and_true _).symm (Bool.and_false _).symm (Bool.and_false _).symm
      · obtain ⟨hpos, h⟩ := ite_none_right_eq_some.mp h
        cases h
        refine ⟨rfl, rfl, rfl, rfl, hp.trans_ne nofun, cmpStart, hcmpStart, rfl, hinside.trans (congrArg _ hend.symm),
          fun _ => ⟨c, hc⟩, .inl ⟨.inr ⟨hp, fun c' hc' => (hconstant c' hc').symm ▸ hpos.1⟩, ?_⟩⟩
        exact countsUp_of_eq rfl hend hp (Bool.or_false _).symm
  | slt | ult =>
    rw [hp] at h
    obtain ⟨-, h⟩ := ite_none_left_eq_some.mp h
    cases h
    refine ⟨rfl, rfl, rfl, rfl, hp.trans_ne nofun, cmpStart, hcmpStart, rfl, hinside.trans (congrArg _ hend.symm),
      fun heq => absurd heq (hp.trans_ne nofun), .inl ⟨.inl (congrArg CmpIPredicate.isLess hp), ?_⟩⟩
    exact countsUp_of_eq rfl hend hp (Bool.or_false _).symm
  | sle | ule =>
    rw [hp] at h
    obtain ⟨-, h⟩ := ite_none_left_eq_some.mp h
    cases h
    refine ⟨rfl, rfl, rfl, rfl, hp.trans_ne nofun, cmpStart, hcmpStart, rfl, hinside.trans (congrArg _ hend.symm),
      fun heq => absurd heq (hp.trans_ne nofun), .inl ⟨.inl (congrArg CmpIPredicate.isLess hp), ?_⟩⟩
    exact countsUp_of_eq rfl hend hp (Bool.or_true _).symm
  | sge | uge | sgt | ugt =>
    rw [hp] at h
    obtain ⟨-, h⟩ := ite_none_left_eq_some.mp h
    cases h
    refine ⟨rfl, rfl, rfl, rfl, hp.trans_ne nofun, cmpStart, hcmpStart, rfl, hinside.trans (congrArg _ hend.symm),
      fun heq => absurd heq (hp.trans_ne nofun), .inr ⟨.inl (congrArg CmpIPredicate.isGreater hp), ?_⟩⟩
    exact countsDown_of_eq rfl hend hp rfl (Bool.and_false _).symm (Bool.and_true _).symm (Bool.and_true _).symm

def WhileToForHelper.cmpOperand (helper : WhileToForHelper) : Value :=
  if helper.compareIndex then helper.cmpIOp.rhs else helper.cmpIOp.lhs

/-- What `computeLegality` says of the comparison. -/
structure Legal (loop : WhileOp W D) (outsideOps : List (Op W D)) (lookThrough : Option Value)
    (helper : WhileToForHelper) : Prop where
  found : detect loop outsideOps (withoutExt loop outsideOps helper.cmpOperand) lookThrough =
    some (.found helper.stepping helper.comparingUpdated)
  predicate_ne : helper.predicate ≠ .eq
  checked : ∃ cmpStart, Checked loop outsideOps helper cmpStart

variable {lookThrough : Option Value}

theorem computeLegality_spec
    (h : computeLegality loop outsideOps cmpIOp lookThrough uninitialized = some (some helper)) :
    helper.cmpIOp = cmpIOp ∧ Legal loop outsideOps lookThrough helper := by
  have hfound : ∀ {compareIndex stepping comparingUpdated},
      (if stepping.step.isResult ∧ loop.isInside stepping.step then none
        else checkPredicate loop outsideOps cmpIOp compareIndex stepping comparingUpdated uninitialized) = some helper →
      detect loop outsideOps (withoutExt loop outsideOps (if compareIndex then cmpIOp.rhs else cmpIOp.lhs)) lookThrough =
        some (.found stepping comparingUpdated) →
      helper.cmpIOp = cmpIOp ∧ Legal loop outsideOps lookThrough helper := by
    intro compareIndex stepping comparingUpdated h hdetect
    obtain ⟨-, h⟩ := ite_none_left_eq_some.mp h
    obtain ⟨rfl, rfl, rfl, rfl, hne, hchecked⟩ := checkPredicate_spec h
    exact ⟨rfl, hdetect, hne, hchecked⟩
  obtain ⟨⟨index, detected⟩, hdetected, h⟩ := map_eq_some_iff.mp h
  obtain ⟨first, hfirst, hdetected⟩ := bind_eq_some_iff.mp hdetected
  cases detected with
  | found stepping comparingUpdated =>
    split at hdetected
    · obtain ⟨d, hd, heq⟩ := map_eq_some_iff.mp hdetected
      cases heq
      exact hfound h hd
    · cases some.inj hdetected
      exact hfound h hfirst
  | _ => cases h

/-! ### The condition -/

/-- The condition of the loop is the comparison, possibly together with the other condition. -/
structure Condition (loop : WhileOp W D) (env : Env D) (lookThrough : Option Value) (cmpIOp : CmpIOp) : Prop where
  seen : ∀ l, lookThrough = some l → loop.SeenBefore l
  lhs_seen : loop.SeenBefore cmpIOp.lhs
  rhs_seen : loop.SeenBefore cmpIOp.rhs
  continues_iff : ∀ s, loop.continues env s = true ↔ loop.FlagTrue env lookThrough s ∧
    Prim.eval (.cmpI cmpIOp.type cmpIOp.predicate)
      [(loop.evaluate env s).2 cmpIOp.lhs, (loop.evaluate env s).2 cmpIOp.rhs] = .bool true

theorem cmpOf_eq_some (h : MoveWhileToFor.cmpOf loop outsideOps v = some cmpIOp) :
    ∃ r, definingOp (visibleOps loop outsideOps) v =
      some (.prim (.cmpI cmpIOp.type cmpIOp.predicate) r [cmpIOp.lhs, cmpIOp.rhs]) := by
  unfold MoveWhileToFor.cmpOf at h
  split at h
  · rename_i r a b hdef
    cases h
    exact ⟨r, hdef⟩
  · cases h

theorem legalSide_spec
    (h : MoveWhileToFor.legalSide loop outsideOps uninitialized side other = some (some (helper, lookThrough))) :
    lookThrough = some other ∧ MoveWhileToFor.cmpOf loop outsideOps side = some helper.cmpIOp ∧
      Legal loop outsideOps lookThrough helper := by
  unfold MoveWhileToFor.legalSide at h
  split at h
  · cases some.inj h
  · rename_i cmpIOp hcmp
    obtain ⟨o, ho, h⟩ := map_eq_some_iff.mp h
    obtain ⟨helper, rfl, heq⟩ := map_eq_some_iff.mp h
    cases heq
    obtain ⟨rfl, hlegal⟩ := computeLegality_spec ho
    exact ⟨rfl, hcmp, hlegal⟩

variable {env : Env D}

theorem condition_of_andI (hw : loop.WellFormed outsideOps) (hholds : WhileOp.Holds outsideOps env) {r a b : Value}
    (hdef : definingOp (visibleOps loop outsideOps) loop.condition = some (.prim .andI r [a, b]))
    (hsides : (a = side ∧ b = other) ∨ (b = side ∧ a = other))
    (hcmp : MoveWhileToFor.cmpOf loop outsideOps side = some cmpIOp) : Condition loop env (some other) cmpIOp := by
  have hseen : loop.SeenBefore loop.condition := hw.before_uses _ (mem_append_right _ mem_cons_self)
  obtain ⟨heval, hops⟩ := hw.eval_before hholds hseen hdef
  have hside : loop.SeenBefore side := by
    rcases hsides with ⟨rfl, rfl⟩ | ⟨rfl, rfl⟩
    · exact hops a (by simp)
    · exact hops b (by simp)
  have hother : loop.SeenBefore other := by
    rcases hsides with ⟨rfl, rfl⟩ | ⟨rfl, rfl⟩
    · exact hops b (by simp)
    · exact hops a (by simp)
  obtain ⟨r', hdef'⟩ := cmpOf_eq_some hcmp
  obtain ⟨hcmpEval, hcmpOperands⟩ := hw.eval_before hholds hside hdef'
  refine ⟨fun l hl => some.inj hl ▸ hother, hcmpOperands _ (by simp), hcmpOperands _ (by simp), fun s => ?_⟩
  have hcompared := hcmpEval s
  rw [map_cons, map_singleton] at hcompared
  rw [WhileOp.continues, Val.isTrue_iff, heval s, map_cons, map_singleton, eval_andI, ← hcompared]
  constructor
  · rintro ⟨x, y, hx, hy, hxy⟩
    obtain ⟨rfl, rfl⟩ := Bool.and_eq_true_iff.mp hxy
    rcases hsides with ⟨rfl, rfl⟩ | ⟨rfl, rfl⟩
    · exact ⟨fun l hl => some.inj hl ▸ hy, hx⟩
    · exact ⟨fun l hl => some.inj hl ▸ hx, hy⟩
  · rintro ⟨hflag, hcmp⟩
    have hother := hflag other rfl
    rcases hsides with ⟨rfl, rfl⟩ | ⟨rfl, rfl⟩
    · exact ⟨true, true, hcmp, hother, rfl⟩
    · exact ⟨true, true, hother, hcmp, rfl⟩

theorem legalHelper_spec (hw : loop.WellFormed outsideOps) (hholds : WhileOp.Holds outsideOps env)
    (h : MoveWhileToFor.legalHelper loop outsideOps uninitialized = some (helper, lookThrough)) :
    Legal loop outsideOps lookThrough helper ∧ Condition loop env lookThrough helper.cmpIOp := by
  unfold MoveWhileToFor.legalHelper at h
  split at h
  · rename_i type predicate r a b hdef
    obtain ⟨helper', hhelper, heq⟩ := map_eq_some_iff.mp h
    obtain ⟨rfl, rfl⟩ := Prod.mk.inj heq
    obtain ⟨o, ho, hid⟩ := bind_eq_some_iff.mp hhelper
    obtain rfl : o = some helper' := hid
    obtain ⟨hcmp, hlegal⟩ := computeLegality_spec ho
    refine ⟨hlegal, ?_⟩
    have hseen : loop.SeenBefore loop.condition := hw.before_uses _ (mem_append_right _ mem_cons_self)
    obtain ⟨heval, hops⟩ := hw.eval_before hholds hseen hdef
    rw [hcmp]
    refine ⟨nofun, hops _ (by simp), hops _ (by simp), fun s => ?_⟩
    rw [WhileOp.continues, Val.isTrue_iff, heval s]
    exact ⟨fun h => ⟨nofun, h⟩, And.right⟩
  · rename_i r a b hdef
    obtain ⟨o, ho, h⟩ := bind_eq_some_iff.mp h
    split at h
    · cases h
      obtain ⟨rfl, hcmp, hlegal⟩ := legalSide_spec ho
      exact ⟨hlegal, condition_of_andI hw hholds hdef (.inl ⟨rfl, rfl⟩) hcmp⟩
    · obtain ⟨o', ho', h⟩ := bind_eq_some_iff.mp h
      obtain rfl : o' = some (helper, lookThrough) := h
      obtain ⟨rfl, hcmp, hlegal⟩ := legalSide_spec ho'
      exact ⟨hlegal, condition_of_andI hw hholds hdef (.inr ⟨rfl, rfl⟩) hcmp⟩
  · cases h

theorem Condition.operand_seen (hcondition : Condition loop env lookThrough helper.cmpIOp) :
    loop.SeenBefore helper.cmpOperand := by
  rw [WhileToForHelper.cmpOperand]
  split
  · exact hcondition.rhs_seen
  · exact hcondition.lhs_seen

theorem withoutExt_spec (hw : loop.WellFormed outsideOps) (hholds : WhileOp.Holds outsideOps env)
    (hv : loop.SeenBefore v) : loop.SeenBefore (withoutExt loop outsideOps v) ∧ ∀ s : W × List (Val D),
      (loop.evaluate env s).2 v = (loop.evaluate env s).2 (withoutExt loop outsideOps v) := by
  unfold withoutExt
  split
  · rename_i r a hdef
    obtain ⟨heval, hops⟩ := hw.eval_before hholds hv hdef
    exact ⟨hops a (by simp), heval⟩
  · exact ⟨hv, fun _ => rfl⟩

section

variable {lookThrough : Option Value} (hlegal : Legal loop outsideOps lookThrough helper)
  (hcondition : Condition loop env lookThrough helper.cmpIOp) (hw : loop.WellFormed outsideOps)
  (hholds : WhileOp.Holds outsideOps env) (hstep : loop.SeenOutside helper.stepping.step)

include hlegal hcondition hw hholds hstep

theorem Legal.advances
    (hif : ¬loop.YieldedByIf outsideOps helper.stepping.indVar) : loop.Advances env lookThrough helper.stepping :=
  (hw.detect_spec hholds (withoutExt_spec hw hholds hcondition.operand_seen).1 hcondition.seen hstep hlegal.found).2 hif

/-- The loop goes on where the other condition is true, and the counter compares with the end. -/
theorem Legal.continues_iff {s : W × List (Val D)} {x c b : Int} (hx : s.2[helper.stepping.indVar]? = some (.int x))
    (hc : env helper.stepping.step = .int c) (hb : (loop.evaluate env s).2 helper.cmpEnd = .int b) :
    loop.continues env s = true ↔ loop.FlagTrue env lookThrough s ∧ helper.predicate.holds helper.cmpIOp.type
      (if helper.comparingUpdated then helper.stepping.type.wrap (x + c) else x) b = true := by
  rw [hcondition.continues_iff s]
  refine and_congr_right fun hflag => ?_
  obtain ⟨hseen, hext⟩ := withoutExt_spec hw hholds hcondition.operand_seen
  have hval := (hw.detect_spec hholds hseen hcondition.seen hstep hlegal.found).1 s x c (fun _ => hflag) hx hc
  rw [← hext s] at hval
  rw [WhileToForHelper.cmpOperand] at hval
  rw [WhileToForHelper.cmpEnd] at hb
  rw [WhileToForHelper.predicate]
  split at hval
  · rename_i hindex
    rw [if_pos hindex] at hb ⊢
    rw [hval, hb, CmpIPredicate.holds_swapPredicate]
    exact ⟨fun h => Val.bool.inj h, congrArg Val.bool⟩
  · rename_i hindex
    rw [if_neg hindex] at hb ⊢
    rw [hval, hb]
    exact ⟨fun h => Val.bool.inj h, congrArg Val.bool⟩

end

end EnzymeJax.Scf
