import EnzymeJax.Scf.WhileToFor

/-!
# The range of a counter

What the counter is compared with, and its direction, give the range of a counted loop. Where its bounds have a place
in their types, the operations of `prepareFor` compute them, and the range has as many values as the comparison
is true.
-/

namespace EnzymeJax.Scf

/-! ### Trip counts -/

variable {lb ub step : Int}

theorem lt_tripCount (hstep : 0 < step) (k : Nat) : k < tripCount lb ub step ↔ lb + k * step < ub := by
  rw [tripCount, Int.lt_toNat, Int.lt_iff_add_one_le, Int.le_ediv_iff_mul_le hstep, add_mul, one_mul]
  constructor
  · intro h
    omega
  · intro h
    omega

theorem tripCount_extended (hstep : 0 < step) : tripCount lb (max ub lb + step) step = tripCount lb ub step + 1 := by
  refine eq_of_forall_lt_iff fun k => ?_
  rw [lt_tripCount hstep]
  cases k with
  | zero =>
    refine iff_of_true ?_ (Nat.succ_pos _)
    have hmax := le_max_right ub lb
    rw [Nat.cast_zero, zero_mul]
    omega
  | succ k =>
    rw [Nat.succ_lt_succ_iff, lt_tripCount hstep, Nat.cast_succ, add_mul, one_mul]
    have hpos : 0 ≤ k * step := Int.mul_nonneg (Int.natCast_nonneg k) hstep.le
    rcases max_choice ub lb with hmax | hmax
    · rw [hmax]
      omega
    · have hle := le_max_left ub lb
      rw [hmax] at hle ⊢
      omega

/-! ### What is compared -/

variable {type : IntType}

namespace CmpIPredicate

def isUnsigned : CmpIPredicate → Bool
  | ult | ule | ugt | uge => true
  | _ => false

def isLess : CmpIPredicate → Bool
  | slt | sle | ult | ule => true
  | _ => false

def isGreater : CmpIPredicate → Bool
  | sgt | sge | ugt | uge => true
  | _ => false

def orEqual : CmpIPredicate → Bool
  | sle | sge | ule | uge => true
  | _ => false

/-- What an integer is compared as. -/
def key (predicate : CmpIPredicate) (type : IntType) (n : Int) : Int :=
  if predicate.isUnsigned then unsigned type n else n

/-- The comparison of integers without bounds. -/
def orders (predicate : CmpIPredicate) (a b : Int) : Prop :=
  match predicate with
  | eq => a = b
  | ne => a ≠ b
  | slt | ult => a < b
  | sle | ule => a ≤ b
  | sgt | ugt => b < a
  | sge | uge => b ≤ a

variable {predicate : CmpIPredicate} {a b : Int}

theorem holds_iff :
    predicate.holds type a b = true ↔ predicate.orders (predicate.key type a) (predicate.key type b) := by
  cases predicate <;> exact decide_eq_true_iff

theorem holds_swapPredicate : (swapPredicate predicate).holds type a b = predicate.holds type b a := by
  cases predicate with
  | eq => exact decide_eq_decide.mpr eq_comm
  | ne => exact decide_eq_decide.mpr ne_comm
  | _ => rfl

theorem orders_of_isLess (h : predicate.isLess = true) :
    predicate.orders a b ↔ a < b + if predicate.orEqual then 1 else 0 := by
  cases predicate <;> simp [isLess, orders, orEqual] at h ⊢

theorem orders_of_isGreater (h : predicate.isGreater = true) :
    predicate.orders a b ↔ (b + if predicate.orEqual then 0 else 1) ≤ a := by
  cases predicate <;> simp [isGreater, orders, orEqual] at h ⊢

theorem kind (predicate : CmpIPredicate) :
    predicate.isLess = true ∨ predicate.isGreater = true ∨ predicate = .ne ∨ predicate = .eq := by
  cases predicate <;> simp [isLess, isGreater]

theorem orders_add {a b d : Int} :
    predicate.orders (a + d) (b + d) ↔ predicate.orders a b := by
  cases predicate <;> simp [orders]

end CmpIPredicate

theorem unsigned_of_signed {n : Int} (hsigned : type.unsigned = false) (hn : type.wrap n = n) :
    unsigned type n = n + if 0 ≤ n then 0 else 2 ^ type.width := by
  obtain ⟨width, _⟩ := type
  subst hsigned
  cases width with
  | zero =>
    obtain rfl : n = 0 := hn.symm.trans (Int.bmod_one n)
    rfl
  | succ width =>
    have hrange : -2 ^ width ≤ n ∧ n < 2 ^ width := (IntType.wrap_signed_eq_iff (Nat.succ_pos width)).mp hn
    rw [unsigned]
    dsimp only
    split
    · rw [Int.add_zero]
      exact Int.emod_eq_of_lt ‹_› (by omega)
    · rw [← Int.add_emod_right]
      exact Int.emod_eq_of_lt (by omega) (by omega)

namespace WhileToForHelper

variable (helper : WhileToForHelper) (start step bound : Int)

/-- What says that the loop goes on, of the counter and what it is compared with. -/
def predicate : CmpIPredicate :=
  if helper.compareIndex then swapPredicate helper.cmpIOp.predicate else helper.cmpIOp.predicate

def cmpEnd : Value := if helper.compareIndex then helper.cmpIOp.lhs else helper.cmpIOp.rhs

/-- How many steps what is compared is ahead of the counter. -/
def offset : Int := if helper.comparingUpdated then 1 else 0

def compared (k : Nat) : Int := helper.stepping.type.wrap (start + (k + helper.offset) * step)

/-- Integers of the types of the loop, for which the counter does not wrap before evaluation `n`. -/
structure IsUnwrapped (n : Nat) : Prop where
  signed : helper.stepping.type.unsigned = false
  cmp_signed : helper.cmpIOp.type.unsigned = false
  -- the counter may be extended
  extended : helper.stepping.type = helper.cmpIOp.type ∨ helper.stepping.type.width < helper.cmpIOp.type.width
  start_fits : helper.stepping.type.wrap start = start
  bound_fits : helper.cmpIOp.type.wrap bound = bound
  key_compared : ∀ k ≤ n, helper.predicate.key helper.cmpIOp.type (helper.compared start step k) =
    helper.predicate.key helper.cmpIOp.type start + (k + helper.offset) * step

/-- The step leads from what is compared first to the bound, and it is known where it is negative. -/
structure Directed : Prop where
  nonzero : step ≠ 0
  negative : step < 0 → helper.negativeStep = true
  less : helper.predicate.isLess = true → 0 < step
  greater : helper.predicate.isGreater = true → 0 < step →
    helper.predicate.holds helper.cmpIOp.type (helper.compared start step 0) bound = false
  unequal : helper.predicate = .ne → (0 < toCInt step ↔ 0 < step) ∧
    ∃ m : Nat, bound = helper.compared start step 0 + m * step
  -- the bounds are compared as signed
  sameSign : helper.predicate.isUnsigned = true → (0 ≤ helper.compared start step 0 ↔ 0 ≤ bound)

/-! ### The range -/

def isUp : Bool := helper.predicate.isLess || (helper.predicate = .ne && 0 < step)

def lower : Int :=
  if helper.isUp step then helper.compared start step 0
  else if helper.predicate = .ne then bound - helper.offset * step
  else bound + if helper.predicate.orEqual then 0 else 1

def upper : Int :=
  if helper.isUp step then bound + if helper.predicate.orEqual then 1 else 0
  else if helper.predicate = .ne then start
  else helper.compared start step 0 + if helper.negativeStep then 1 else 0

def lowerType : IntType := if helper.isUp step then helper.stepping.type else helper.cmpIOp.type

def upperType : IntType := if helper.isUp step then helper.cmpIOp.type else helper.stepping.type

def rangeType : IntType := if helper.stepping.type = helper.cmpIOp.type then helper.stepping.type else index

/-- The range has a place in its types. -/
structure Fits (doWhile : Bool) : Prop where
  lower : (helper.lowerType step).wrap (helper.lower start step bound) = helper.lower start step bound
  upper : (helper.upperType step).wrap (helper.upper start step bound) = helper.upper start step bound
  stride : helper.stepping.type.wrap |step| = |step|
  cast_lower : helper.rangeType.wrap (helper.lower start step bound) = helper.lower start step bound
  cast_upper : helper.rangeType.wrap (helper.upper start step bound) = helper.upper start step bound
  cast_stride : helper.rangeType.wrap |step| = |step|
  -- a step is taken from what is compared
  same : helper.predicate = .ne → helper.comparingUpdated = true → step < 0 → helper.stepping.type = helper.cmpIOp.type
  last : doWhile = true → helper.rangeType.wrap (max (helper.upper start step bound) (helper.lower start step bound) + |step|)
    = max (helper.upper start step bound) (helper.lower start step bound) + |step|

variable {helper start step bound} {n : Nat}

theorem IsUnwrapped.compared_fits (h : helper.IsUnwrapped start step bound n) (k : Nat) :
    helper.cmpIOp.type.wrap (helper.compared start step k) = helper.compared start step k := by
  rcases h.extended with heq | hlt
  · rw [← heq, compared, IntType.wrap_wrap]
  · have hfits : helper.stepping.type.wrap (helper.compared start step k) = helper.compared start step k := by
      rw [compared, IntType.wrap_wrap]
    have hwide := IntType.wrap_of_width_lt hfits hlt
    rwa [← h.cmp_signed] at hwide

theorem IsUnwrapped.holds_compared (h : helper.IsUnwrapped start step bound n)
    (hsign : helper.predicate.isUnsigned = true → (0 ≤ helper.compared start step 0 ↔ 0 ≤ bound)) {k : Nat} (hk : k ≤ n) :
    helper.predicate.holds helper.cmpIOp.type (helper.compared start step k) bound = true ↔
      helper.predicate.orders (helper.compared start step 0 + k * step) bound := by
  have hkey : helper.predicate.key helper.cmpIOp.type (helper.compared start step k) =
      helper.predicate.key helper.cmpIOp.type (helper.compared start step 0) + k * step := by
    rw [h.key_compared k hk, h.key_compared 0 (Nat.zero_le n)]
    push_cast
    ring
  rw [CmpIPredicate.holds_iff, hkey]
  cases hunsigned : helper.predicate.isUnsigned with
  | false =>
    rw [CmpIPredicate.key, CmpIPredicate.key, hunsigned, if_neg Bool.false_ne_true, if_neg Bool.false_ne_true]
  | true =>
    rw [CmpIPredicate.key, CmpIPredicate.key, hunsigned, if_pos rfl, if_pos rfl,
      unsigned_of_signed h.cmp_signed (h.compared_fits 0), unsigned_of_signed h.cmp_signed h.bound_fits,
      if_congr (hsign hunsigned) rfl rfl, add_right_comm, CmpIPredicate.orders_add]

theorem Directed.holds_iff_lt (hdirected : helper.Directed start step bound)
    (h : helper.IsUnwrapped start step bound n) (hne : helper.predicate ≠ .eq)
    (hnegative : helper.negativeStep = true → step < 0)
    (hbefore : ∀ k < n, helper.predicate.holds helper.cmpIOp.type (helper.compared start step k) bound = true) {k : Nat}
    (hk : k ≤ n) : helper.predicate.holds helper.cmpIOp.type (helper.compared start step k) bound = true ↔
      k < tripCount (helper.lower start step bound) (helper.upper start step bound) |step| := by
  have hpos : 0 < |step| := abs_pos.mpr hdirected.nonzero
  have hholds := fun {j : Nat} (hj : j ≤ n) => h.holds_compared hdirected.sameSign hj
  rw [lt_tripCount hpos]
  rcases helper.predicate.kind with hless | hgreater | hunequal | hequal
  · have hstep := hdirected.less hless
    have hup : helper.isUp step = true := by rw [isUp, hless, Bool.true_or]
    rw [hholds hk, CmpIPredicate.orders_of_isLess hless, lower, upper, if_pos hup, if_pos hup, abs_of_pos hstep]
  · have hup : helper.isUp step = false := by
      cases hp : helper.predicate <;> simp [hp, isUp, CmpIPredicate.isLess, CmpIPredicate.isGreater] at hgreater ⊢
    have hne : helper.predicate ≠ .ne := by
      intro heq
      rw [heq] at hgreater
      cases hgreater
    rw [hholds hk, CmpIPredicate.orders_of_isGreater hgreater, lower, upper, hup, if_neg Bool.false_ne_true,
      if_neg Bool.false_ne_true, if_neg hne, if_neg hne]
    rcases lt_or_gt_of_ne hdirected.nonzero with hstep | hstep
    · rw [if_pos (hdirected.negative hstep), abs_of_neg hstep, mul_neg]
      omega
    · -- the first comparison is false, and the only one
      have hfalse := hdirected.greater hgreater hstep
      obtain rfl : n = 0 := by
        by_contra hn
        have htrue := hbefore 0 (pos_of_ne_zero hn)
        rw [hfalse] at htrue
        cases htrue
      obtain rfl := Nat.le_zero.mp hk
      have hnot := hholds (le_refl 0)
      rw [hfalse, CmpIPredicate.orders_of_isGreater hgreater] at hnot
      have hlt := not_le.mp (mt hnot.mpr Bool.false_ne_true)
      have hpositive : ¬helper.negativeStep = true := fun hneg => absurd (hnegative hneg) (not_lt.mpr hstep.le)
      rw [if_neg hpositive]
      rw [Nat.cast_zero, zero_mul] at hlt ⊢
      omega
  · obtain ⟨-, m, hbound⟩ := hdirected.unequal hunequal
    have horders : ∀ {j : Nat}, helper.predicate.orders (helper.compared start step 0 + j * step) bound ↔ j ≠ m := by
      intro j
      rw [hunequal, hbound]
      change _ ≠ _ ↔ _
      rw [ne_eq, add_left_cancel_iff, mul_left_inj' hdirected.nonzero, Nat.cast_inj]
    -- no evaluation before the last is the one that ends the loop
    have hm : n ≤ m := by
      by_contra hlt
      have htrue := hbefore m (not_le.mp hlt)
      exact horders.mp ((hholds (not_le.mp hlt).le).mp htrue) rfl
    have hlt : k ≠ m ↔ k < m := by omega
    rw [hholds hk, horders, hlt, lower, upper]
    rcases lt_or_gt_of_ne hdirected.nonzero with hstep | hstep
    · have hup : helper.isUp step = false := by
        rw [isUp, hunequal, Bool.or_eq_false_iff, Bool.and_eq_false_iff]
        exact ⟨rfl, .inr (decide_eq_false (not_lt.mpr hstep.le))⟩
      have hstart : helper.compared start step 0 = start + helper.offset * step := by
        have hkey := h.key_compared 0 (Nat.zero_le n)
        rwa [hunequal, Nat.cast_zero, zero_add] at hkey
      rw [hup, if_neg Bool.false_ne_true, if_neg Bool.false_ne_true, if_pos hunequal, if_pos hunequal, hbound, hstart,
        abs_of_neg hstep]
      have hcancel : start + helper.offset * step + m * step - helper.offset * step + k * -step =
          start - (k - m) * step := by ring
      rw [hcancel]
      constructor
      · intro hlt
        have hmul := mul_pos_of_neg_of_neg (show (k : Int) - m < 0 by omega) hstep
        omega
      · intro hmul
        have hpos := neg_of_mul_pos_left (show 0 < ((k : Int) - m) * step by omega) hstep.le
        omega
    · have hup : helper.isUp step = true := by
        rw [isUp, hunequal, Bool.or_eq_true, Bool.and_eq_true]
        exact .inr ⟨rfl, decide_eq_true hstep⟩
      rw [if_pos hup, if_pos hup, hunequal, hbound, abs_of_pos hstep]
      change _ ↔ _ < _ + 0
      rw [Int.add_zero, add_lt_add_iff_left, mul_lt_mul_iff_left₀ hstep, Nat.cast_lt]
  · exact absurd hequal hne

/-! ### The operations that are created -/

/-- From the counter up to what it is compared with. -/
structure CountsUp (helper : WhileToForHelper) (cmpStart : Value) : Prop where
  lb : helper.lb = cmpStart
  lbType : helper.lbType = helper.stepping.type
  lb_addOne : helper.lb_addOne = false
  lb_addStep : helper.lb_addStep = helper.comparingUpdated
  lb_subStep : helper.lb_subStep = false
  ub : helper.ub = helper.cmpEnd
  ubType : helper.ubType = helper.cmpIOp.type
  ub_addOne : helper.ub_addOne = (helper.negativeStep || helper.predicate.orEqual)
  ub_addStep : helper.ub_addStep = false

/-- From what the counter is compared with up to the counter. -/
structure CountsDown (helper : WhileToForHelper) (cmpStart : Value) : Prop where
  lb : helper.lb = helper.cmpEnd
  lbType : helper.lbType = helper.cmpIOp.type
  lb_addOne : helper.lb_addOne = (!helper.predicate.orEqual && helper.predicate ≠ .ne)
  lb_addStep : helper.lb_addStep = false
  lb_subStep : helper.lb_subStep = (helper.comparingUpdated && helper.predicate = .ne)
  ub : helper.ub = cmpStart
  ubType : helper.ubType = helper.stepping.type
  ub_addOne : helper.ub_addOne = (helper.negativeStep && helper.predicate ≠ .ne)
  ub_addStep : helper.ub_addStep = (helper.comparingUpdated && helper.predicate ≠ .ne)

variable {D : Type} {outside : Value → Bool} {env : Env D} {cmpStart : Value} {doWhile : Bool}

theorem eval_value (type : IntType) {v : Value} {x : Int} (hv : outside v = true) (hx : env v = .int x) :
    (Expr.value type v).eval outside env = some x := by
  rw [Expr.eval, hv, hx]

theorem eval_constant {x : Int} : (Expr.constant type x).eval outside env = some (type.wrap x) := rfl

section

variable {a b : Expr} {x y : Int} (hx : a.eval outside env = some x)
  (hy : b.eval outside env = some y) (htype : a.type = b.type)

include hx hy htype

theorem eval_addI : (a.addI b).eval outside env = some (a.type.wrap (x + y)) := by
  rw [Expr.eval, if_pos htype, hx, hy]
  rfl

theorem eval_subI : (a.subI b).eval outside env = some (a.type.wrap (x - y)) := by
  rw [Expr.eval, if_pos htype, hx, hy]
  rfl

end

/-- The values in front of the loop are the integers that it is about. -/
structure Reads (helper : WhileToForHelper) (outside : Value → Bool) (env : Env D) (cmpStart : Value)
    (start step bound : Int) : Prop where
  start_outside : outside cmpStart = true
  step_outside : outside helper.stepping.step = true
  bound_outside : outside helper.cmpEnd = true
  start_eq : env cmpStart = .int start
  step_eq : env helper.stepping.step = .int step
  bound_eq : env helper.cmpEnd = .int bound

theorem Reads.eval_stride (h : Reads helper outside env cmpStart start step bound)
    (hfits : helper.Fits start step bound doWhile) (hnonzero : step ≠ 0) (hnegative : helper.negativeStep = true ↔ step < 0) :
    helper.bounds.2.2.eval outside env = some |step| ∧ helper.bounds.2.2.type = helper.stepping.type := by
  have hval := eval_value helper.stepping.type h.step_outside h.step_eq
  cases hneg : helper.negativeStep with
  | true =>
    have hlt : step < 0 := hnegative.mp hneg
    have hstride := hfits.stride
    rw [abs_of_neg hlt] at hstride ⊢
    simp only [bounds, hneg, if_true, Expr.type]
    refine ⟨?_, trivial⟩
    rw [eval_subI eval_constant hval rfl, IntType.wrap_zero, Int.zero_sub]
    exact congrArg some hstride
  | false =>
    have hle : ¬step < 0 := fun hlt => Bool.false_ne_true (hneg.symm.trans (hnegative.mpr hlt))
    rw [abs_of_pos (lt_of_le_of_ne (not_lt.mp hle) hnonzero.symm)]
    simp only [bounds, hneg, Bool.false_eq_true, if_false]
    exact ⟨hval, rfl⟩

theorem CountsUp.eval_bounds (hup : CountsUp helper cmpStart) (h : Reads helper outside env cmpStart start step bound)
    (hrange : helper.IsUnwrapped start step bound n) (hfits : helper.Fits start step bound doWhile)
    (hdirection : helper.isUp step = true) (hnegative : helper.negativeStep = false) :
    helper.bounds.1.eval outside env = some (helper.lower start step bound) ∧
      helper.bounds.1.type = helper.stepping.type ∧
      helper.bounds.2.1.eval outside env = some (helper.upper start step bound) ∧
      helper.bounds.2.1.type = helper.cmpIOp.type := by
  have hstart := eval_value helper.stepping.type h.start_outside h.start_eq
  have hstep := eval_value helper.stepping.type h.step_outside h.step_eq
  have hbound := eval_value helper.cmpIOp.type h.bound_outside h.bound_eq
  have hupper := hfits.upper
  rw [upperType, if_pos hdirection, upper, if_pos hdirection] at hupper
  simp only [bounds, hup.lb, hup.lbType, hup.lb_addOne, hup.lb_addStep, hup.lb_subStep, hup.ub, hup.ubType, hup.ub_addOne,
    hup.ub_addStep, hnegative, Bool.false_or, Bool.false_eq_true, if_false, Expr.type]
  refine ⟨?_, ?_, ?_, ?_⟩
  · rw [lower, if_pos hdirection, compared, offset]
    split
    · rw [eval_addI hstart hstep rfl, Nat.cast_zero, zero_add, one_mul]
      rfl
    · rw [hstart, Nat.cast_zero, zero_add, zero_mul, Int.add_zero, hrange.start_fits]
  · split
    · rfl
    · rfl
  · rw [upper, if_pos hdirection]
    split at hupper
    · rw [if_pos ‹_›, if_pos ‹_›, eval_addI hbound eval_constant rfl]
      change some (helper.cmpIOp.type.wrap (bound + helper.cmpIOp.type.wrap 1)) = _
      rw [IntType.wrap_add_wrap, hupper]
    · rw [if_neg ‹_›, if_neg ‹_›, hbound, Int.add_zero]
  · split
    · rfl
    · rfl

theorem CountsDown.eval_bounds (hdown : CountsDown helper cmpStart)
    (h : Reads helper outside env cmpStart start step bound) (hrange : helper.IsUnwrapped start step bound n)
    (hfits : helper.Fits start step bound doWhile) (hdirection : helper.isUp step = false)
    (hsame : helper.predicate = .ne → step < 0) :
    helper.bounds.1.eval outside env = some (helper.lower start step bound) ∧
      helper.bounds.1.type = helper.cmpIOp.type ∧
      helper.bounds.2.1.eval outside env = some (helper.upper start step bound) ∧
      helper.bounds.2.1.type = helper.stepping.type := by
  have hstart := eval_value helper.stepping.type h.start_outside h.start_eq
  have hstep := eval_value helper.stepping.type h.step_outside h.step_eq
  have hbound := eval_value helper.cmpIOp.type h.bound_outside h.bound_eq
  have hlower := hfits.lower
  have hupper := hfits.upper
  rw [lowerType, hdirection, if_neg Bool.false_ne_true, lower, hdirection, if_neg Bool.false_ne_true] at hlower
  rw [upperType, hdirection, if_neg Bool.false_ne_true, upper, hdirection, if_neg Bool.false_ne_true] at hupper
  rw [lower, upper, hdirection, if_neg Bool.false_ne_true, if_neg Bool.false_ne_true]
  simp only [bounds, hdown.lb, hdown.lbType, hdown.lb_addOne, hdown.lb_addStep, hdown.lb_subStep, hdown.ub, hdown.ubType,
    hdown.ub_addOne, hdown.ub_addStep, Bool.false_eq_true, if_false, Expr.type]
  by_cases hne : helper.predicate = .ne
  · simp only [hne, ne_eq, not_true_eq_false, decide_false, Bool.and_false, Bool.false_eq_true, if_false, decide_true,
      Bool.and_true, if_true] at hlower ⊢
    refine ⟨?_, ?_, hstart, rfl⟩
    · rw [offset] at hlower ⊢
      split
      · have htype := hfits.same hne ‹_› (hsame hne)
        rw [if_pos ‹_›, one_mul] at hlower
        rw [eval_subI hbound hstep htype.symm, one_mul]
        exact congrArg some hlower
      · rw [hbound, zero_mul, Int.sub_zero]
    · split
      · rfl
      · rfl
  · simp only [hne, ne_eq, not_false_eq_true, decide_true, Bool.and_true, decide_false, Bool.and_false, Bool.false_eq_true,
      if_false] at hlower hupper ⊢
    refine ⟨?_, ?_, ?_, ?_⟩
    · cases hequal : helper.predicate.orEqual with
      | true => simpa [hequal] using hbound
      | false =>
        simp only [hequal, Bool.false_eq_true, if_false, Bool.not_false, if_true] at hlower ⊢
        rw [eval_addI hbound eval_constant rfl]
        change some (helper.cmpIOp.type.wrap (bound + helper.cmpIOp.type.wrap 1)) = _
        rw [IntType.wrap_add_wrap, hlower]
    · split
      · rfl
      · rfl
    · -- first one is added, then the step
      have hone : (if helper.negativeStep then
            (Expr.value helper.stepping.type cmpStart).addI (.constant helper.stepping.type 1)
          else Expr.value helper.stepping.type cmpStart).eval outside env =
          some (helper.stepping.type.wrap (start + if helper.negativeStep then 1 else 0)) := by
        split
        · rw [eval_addI hstart eval_constant rfl]
          change some (helper.stepping.type.wrap (start + helper.stepping.type.wrap 1)) = _
          rw [IntType.wrap_add_wrap]
        · rw [hstart, Int.add_zero, hrange.start_fits]
      have htype : (if helper.negativeStep then
            (Expr.value helper.stepping.type cmpStart).addI (.constant helper.stepping.type 1)
          else Expr.value helper.stepping.type cmpStart).type = helper.stepping.type := by
        split
        · rfl
        · rfl
      rw [← hupper, compared, IntType.wrap_wrap_add, Nat.cast_zero, zero_add, offset]
      split
      · rw [eval_addI hone hstep htype, htype, IntType.wrap_wrap_add, one_mul, add_right_comm]
      · rw [hone, zero_mul, Int.add_zero]
    · split
      · split
        · rfl
        · rfl
      · split
        · rfl
        · rfl

theorem eval_prepareFor (h : Reads helper outside env cmpStart start step bound)
    (hcounts : if helper.isUp step then CountsUp helper cmpStart else CountsDown helper cmpStart)
    (hrange : helper.IsUnwrapped start step bound n) (hdirected : helper.Directed start step bound)
    (hfits : helper.Fits start step bound doWhile) (hnegative : helper.negativeStep = true → step < 0) :
    helper.prepareFor.1.eval outside env = some (helper.lower start step bound) ∧
      helper.prepareFor.2.1.eval outside env = some (helper.upper start step bound) ∧
      helper.prepareFor.2.2.eval outside env = some |step| ∧ helper.prepareFor.1.type = helper.rangeType ∧
      helper.prepareFor.2.1.type = helper.rangeType ∧ helper.prepareFor.2.2.type = helper.rangeType := by
  obtain ⟨hstride, hstrideType⟩ := h.eval_stride hfits hdirected.nonzero ⟨hnegative, hdirected.negative⟩
  -- the types of the bounds, in one order or the other
  have hbounds : helper.bounds.1.eval outside env = some (helper.lower start step bound) ∧
      helper.bounds.2.1.eval outside env = some (helper.upper start step bound) ∧
      ((helper.bounds.1.type = helper.stepping.type ∧ helper.bounds.2.1.type = helper.cmpIOp.type) ∨
        (helper.bounds.1.type = helper.cmpIOp.type ∧ helper.bounds.2.1.type = helper.stepping.type)) := by
    cases hup : helper.isUp step with
    | true =>
      rw [hup, if_pos rfl] at hcounts
      have hpositive : helper.negativeStep = false := by
        rw [isUp, Bool.or_eq_true, Bool.and_eq_true] at hup
        have hstep : 0 < step := hup.elim hdirected.less fun hne => of_decide_eq_true hne.2
        exact Bool.eq_false_iff.mpr fun hneg => absurd (hnegative hneg) (not_lt.mpr hstep.le)
      obtain ⟨hlower, hlowerType, hupper, hupperType⟩ := hcounts.eval_bounds h hrange hfits hup hpositive
      exact ⟨hlower, hupper, .inl ⟨hlowerType, hupperType⟩⟩
    | false =>
      rw [hup, if_neg Bool.false_ne_true] at hcounts
      have hsame : helper.predicate = .ne → step < 0 := by
        intro hne
        rw [isUp, Bool.or_eq_false_iff, Bool.and_eq_false_iff] at hup
        have hnot : ¬0 < step := hup.2.elim (fun h => absurd hne (of_decide_eq_false h)) of_decide_eq_false
        exact lt_of_le_of_ne (not_lt.mp hnot) hdirected.nonzero
      obtain ⟨hlower, hlowerType, hupper, hupperType⟩ := hcounts.eval_bounds h hrange hfits hup hsame
      exact ⟨hlower, hupper, .inr ⟨hlowerType, hupperType⟩⟩
  obtain ⟨hlower, hupper, htypes⟩ := hbounds
  have hiff : (helper.stepping.type = helper.bounds.1.type ∧ helper.bounds.2.1.type = helper.bounds.1.type) ↔
      helper.stepping.type = helper.cmpIOp.type := by
    rcases htypes with ⟨hlowerType, hupperType⟩ | ⟨hlowerType, hupperType⟩
    · rw [hlowerType, hupperType]
      exact ⟨fun h => h.2.symm, fun h => ⟨rfl, h.symm⟩⟩
    · rw [hlowerType, hupperType]
      exact ⟨fun h => h.1, fun h => ⟨h, h⟩⟩
  have hcastLower := hfits.cast_lower
  have hcastUpper := hfits.cast_upper
  have hcastStride := hfits.cast_stride
  rw [rangeType] at hcastLower hcastUpper hcastStride ⊢
  have hprepare : helper.prepareFor =
      if helper.stepping.type = helper.bounds.1.type ∧ helper.bounds.2.1.type = helper.bounds.1.type then helper.bounds
      else (.indexCast helper.bounds.1, .indexCast helper.bounds.2.1, .indexCast helper.bounds.2.2) := rfl
  rw [hprepare]
  by_cases heq : helper.stepping.type = helper.bounds.1.type ∧ helper.bounds.2.1.type = helper.bounds.1.type
  · rw [if_pos heq, if_pos (hiff.mp heq)]
    exact ⟨hlower, hupper, hstride, heq.1.symm, heq.2.trans heq.1.symm, hstrideType⟩
  · rw [if_neg (mt hiff.mpr heq)] at hcastLower hcastUpper hcastStride ⊢
    rw [if_neg heq]
    refine ⟨?_, ?_, ?_, rfl, rfl, rfl⟩
    · rw [Expr.eval, hlower, Option.map_some, hcastLower]
    · rw [Expr.eval, hupper, Option.map_some, hcastUpper]
    · rw [Expr.eval, hstride, Option.map_some, hcastStride]

end WhileToForHelper

end EnzymeJax.Scf
