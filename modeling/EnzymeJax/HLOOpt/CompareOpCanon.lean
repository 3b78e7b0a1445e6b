import EnzymeJax.HLOOpt.Comparisons

/-!
# Canonical comparisons

The pattern `CompareOpCanon` for integers and floats. Floats are abstracted to what comparisons see of
them. Comparisons in total order are only ever folded, and are left out.
-/

namespace EnzymeJax.Comparisons

open List Option

namespace CompareOpCanon

variable {α : Type*} [LinearOrder α] [Zero α]

/-- A float that is no number, a zero, or another number, the first two with their sign bit. -/
inductive FloatValue (α : Type*) [Zero α]
  | nan (negative : Bool)
  | zero (negative : Bool)
  | ordered (value : α) (ne_zero : value ≠ 0)

variable {direction : ComparisonDirection} {y : FloatValue α}

namespace FloatValue

def number : FloatValue α → Option α
  | nan _ => none
  | zero _ => some 0
  | ordered value _ => some value

def signBit : FloatValue α → Bool
  | nan negative => negative
  | zero negative => negative
  | ordered value _ => decide (value < 0)

/-- What is no number differs from everything. -/
def holds (direction : ComparisonDirection) (x y : FloatValue α) : Bool :=
  match x.number, y.number with
  | some n, some m => direction.holds n m
  | _, _ => decide (direction = .ne)

theorem holds_of_number {x : FloatValue α} {n m : α} (hx : x.number = some n) (hy : y.number = some m) :
    x.holds direction y = direction.holds n m := by
  rw [holds, hx, hy]

theorem holds_of_not_number (x : FloatValue α) (hy : y.number = none) :
    x.holds direction y = decide (direction = .ne) := by
  rw [holds, hy]
  cases x.number <;> rfl

end FloatValue

inductive ElementType
  | integer (type : IntType)
  | float
  deriving DecidableEq

inductive Element (α : Type*) [Zero α]
  | integer (value : Int)
  | float (value : FloatValue α)

namespace Element

def InType : ElementType → Element α → Prop
  | .integer type, integer n => type.wrap n = n
  | .float, float _ => True
  | _, _ => False

def holds (direction : ComparisonDirection) : Element α → Element α → Bool
  | integer n, integer m => direction.holds n m
  | float x, float y => x.holds direction y
  | _, _ => false

def isFloat : Element α → Bool
  | integer _ => false
  | float _ => true

/-- Of integers this is asked in signed types only. -/
def isNegative : Element α → Bool
  | integer n => decide (n < 0)
  | float x => x.signBit

def isZero : Element α → Bool
  | integer n => decide (n = 0)
  | float (.zero _) => true
  | float _ => false

/-- An element that no number below zero is. -/
def NonNegative : Element α → Prop
  | integer n => 0 ≤ n
  | float x => ∀ n ∈ x.number, 0 ≤ n

def NoNan : Element α → Prop
  | integer _ => True
  | float x => x.number ≠ none

end Element

inductive ComparisonType
  | float | signed | unsigned
  deriving DecidableEq

inductive Operand (α : Type*) [Zero α]
  | value (number : Nat)
  | constant (element : Element α) (splat : Bool)

namespace Operand

def element (env : Nat → Element α) : Operand α → Element α
  | value n => env n
  | constant element _ => element

end Operand

/-- The comparison type that belongs to the elements. -/
def ComparisonType.Fits : ComparisonType → ElementType → Prop
  | float, type => type = .float
  | signed, type => ∃ width, type = .integer ⟨width, false⟩
  | unsigned, type => ∃ width, type = .integer ⟨width, true⟩

/-- A comparison, with what the analyses guarantee of values. -/
structure CompareOp (α : Type*) [Zero α] where
  type : ElementType
  direction : ComparisonDirection
  compareType : Option ComparisonType
  lhs : Operand α
  rhs : Operand α
  guaranteedNonNegativeResult : Nat → Bool
  guaranteedNoNanResult : Nat → Bool
  fits : ∀ kind ∈ compareType, kind.Fits type
  constants : ∀ o ∈ [lhs, rhs], ∀ c splat, o = .constant c splat → c.InType type

inductive Replacement
  | constant (element : Bool)
  | swapped

namespace CompareOp

variable (op : CompareOp α)

def holds (env : Nat → Element α) : Bool := Element.holds op.direction (op.lhs.element env) (op.rhs.element env)

/-- The elements that the operands may have. -/
structure Computes (env : Nat → Element α) : Prop where
  inType : ∀ n, (env n).InType op.type
  nonNegative : ∀ n, op.guaranteedNonNegativeResult n = true → (env n).NonNegative
  noNan : ∀ n, op.guaranteedNoNanResult n = true → (env n).NoNan

def Replacement.holds (env : Nat → Element α) : Replacement → Bool
  | .constant element => element
  | .swapped => Element.holds op.direction.invertDirection (op.rhs.element env) (op.lhs.element env)

def Exact (new : Replacement) : Prop := ∀ env, op.Computes env → Replacement.holds op env new = op.holds env

/-! ### The pattern -/

def foldConstants : Option Replacement :=
  match op.lhs, op.rhs with
  | .constant c _, .constant d _ => some (.constant (Element.holds op.direction c d))
  | _, _ => none

def isInteger : Bool := decide (op.compareType = some .signed ∨ op.compareType = some .unsigned)

def sameOperands : Option Replacement :=
  match op.lhs, op.rhs with
  | .value n, .value m =>
    if n = m then
      some (.constant (match op.direction with
        | .eq | .ge | .le => true
        | .gt | .lt | .ne => false))
    else none
  | _, _ => none

def moveConstant : Option Replacement :=
  match op.lhs, op.rhs with
  | .constant _ _, .value _ => some .swapped
  | _, _ => none

/-- What an operand that is not negative compares like with a constant. -/
def simplifyNonNegative (c : Element α) (splat : Bool) (direction : ComparisonDirection) (other : Nat) :
    Option Replacement :=
  if splat then
    if op.compareType = some .signed ∨
        c.isFloat ∧ (op.compareType = none ∨ op.compareType = some .float) ∧ op.guaranteedNoNanResult other then
      if c.isNegative then
        match direction with
        | .eq | .le | .lt => some (.constant false)
        | .ne | .ge | .gt => some (.constant true)
      else if c.isZero then
        match direction with
        | .lt => some (.constant false)
        | .ge => some (.constant true)
        | _ => none
      else none
    else if op.compareType = some .unsigned then
      if c.isZero then
        match direction with
        | .lt => some (.constant false)
        | .ge => some (.constant true)
        | _ => none
      else none
    else none
  else none

def simplifySides : Option Replacement :=
  match op.lhs, op.rhs with
  | .value n, .constant c splat =>
    if op.guaranteedNonNegativeResult n then op.simplifyNonNegative c splat op.direction n else none
  | .constant c splat, .value n =>
    if op.guaranteedNonNegativeResult n then op.simplifyNonNegative c splat op.direction.invertDirection n
    else none
  | _, _ => none

def compareOpCanon : Option Replacement :=
  op.foldConstants.or
    (if op.isInteger then (op.sameOperands.or op.moveConstant).or op.simplifySides else op.simplifySides)

/-! ### When the pattern is exact -/

/-- The sign bit says nothing of a zero or of what is no number. -/
def constantWhen (direction : ComparisonDirection) : Element α → Prop
  | .float (.zero true) => direction = .lt ∨ direction = .ge
  | .float (.nan true) => direction ≠ .gt ∧ direction ≠ .ge
  | _ => True

def canonWhen : Prop :=
  match op.lhs, op.rhs with
  | .value _, .constant c _ => constantWhen op.direction c
  | .constant c _, .value _ => constantWhen op.direction.invertDirection c
  | _, _ => True

theorem holds_invertDirection (direction : ComparisonDirection) (x y : Element α) :
    Element.holds direction.invertDirection x y = Element.holds direction y x := by
  cases x with
  | integer n =>
    cases y with
    | integer m => exact ComparisonDirection.holds_reversed ..
    | float y => rfl
  | float x =>
    cases y with
    | integer m => rfl
    | float y =>
      have hne : (direction.invertDirection = .ne) ↔ direction = .ne := by cases direction <;> decide
      simp only [Element.holds, FloatValue.holds]
      cases x.number with
      | none => cases y.number <;> simp only [hne]
      | some n =>
        cases y.number with
        | none => simp only [hne]
        | some m => exact ComparisonDirection.holds_reversed ..

variable {c : Element α} {splat : Bool} {type : ElementType}

omit [LinearOrder α] in
theorem eq_integer_of_isInteger (h : op.isInteger = true) (hc : c.InType op.type) : ∃ n, c = .integer n := by
  have hkind := of_decide_eq_true h
  have htype : ∃ type, op.type = .integer type := by
    rcases hkind with hkind | hkind
    · obtain ⟨width, hwidth⟩ := op.fits _ hkind
      exact ⟨_, hwidth⟩
    · obtain ⟨width, hwidth⟩ := op.fits _ hkind
      exact ⟨_, hwidth⟩
  obtain ⟨type, htype⟩ := htype
  rw [htype] at hc
  cases c with
  | integer n => exact ⟨n, rfl⟩
  | float x => exact hc.elim

variable {op} {new : Replacement}

theorem exact_sameOperands (hint : op.isInteger = true) (h : op.sameOperands = some new) :
    op.Exact new ∧ op.canonWhen := by
  unfold sameOperands at h
  split at h
  · next n m hlhs hrhs =>
    split at h
    · next hsame =>
      subst hsame
      cases h
      constructor
      · intro env henv
        obtain ⟨k, hk⟩ := op.eq_integer_of_isInteger hint (henv.inType n)
        rw [CompareOp.holds, hlhs, hrhs]
        change _ = Element.holds op.direction (env n) (env n)
        rw [hk]
        cases op.direction <;> simp [Replacement.holds, Element.holds, ComparisonDirection.holds]
      · rw [canonWhen, hlhs, hrhs]
        trivial
    · cases h
  · cases h

theorem exact_moveConstant (hint : op.isInteger = true) (h : op.moveConstant = some new) :
    op.Exact new ∧ op.canonWhen := by
  unfold moveConstant at h
  split at h
  · next c splat n hlhs hrhs =>
    cases h
    constructor
    · intro env henv
      exact holds_invertDirection ..
    · obtain ⟨k, rfl⟩ := op.eq_integer_of_isInteger hint (op.constants _ mem_cons_self c splat hlhs)
      rw [canonWhen, hlhs, hrhs]
      trivial
  · exact absurd h nofun

omit [LinearOrder α] in
theorem not_isFloat (hc : c.InType op.type)
    (h : op.compareType = some .signed ∨ op.compareType = some .unsigned) : c.isFloat = false := by
  obtain ⟨n, rfl⟩ := op.eq_integer_of_isInteger (decide_eq_true h) hc
  rfl

omit [LinearOrder α] in
theorem eq_of_zero_answer (h : (if c.isZero then
        match direction with
        | .lt => some (.constant false)
        | .ge => some (.constant true)
        | _ => none
      else none) = some new) :
    c.isZero = true ∧ (direction = .lt ∨ direction = .ge) ∧ new = .constant (decide (direction = .ge)) := by
  split at h
  · next hzero =>
    cases direction with
    | lt =>
      cases h
      exact ⟨hzero, Or.inl rfl, rfl⟩
    | ge =>
      cases h
      exact ⟨hzero, Or.inr rfl, rfl⟩
    | _ => exact absurd h nofun
  · exact absurd h nofun

theorem eq_of_simplifyNonNegative {n : Nat} (hc : c.InType op.type)
    (h : op.simplifyNonNegative c splat direction n = some new) :
    (c.isFloat = true → op.guaranteedNoNanResult n = true) ∧
      ((c.isNegative = true ∧ new = .constant (decide (direction = .ne ∨ direction = .ge ∨ direction = .gt))) ∨
        (c.isZero = true ∧ (direction = .lt ∨ direction = .ge) ∧ new = .constant (decide (direction = .ge)))) := by
  unfold simplifyNonNegative at h
  split at h
  · split at h
    · next hkind =>
      constructor
      · intro hfloat
        rcases hkind with hsigned | hkind
        · rw [not_isFloat hc (Or.inl hsigned)] at hfloat
          exact absurd hfloat Bool.false_ne_true
        · exact hkind.2.2
      · split at h
        · next hneg =>
          refine Or.inl ⟨hneg, ?_⟩
          cases direction <;> cases h <;> rfl
        · exact Or.inr (eq_of_zero_answer h)
    · split at h
      · next hunsigned =>
        refine ⟨fun hfloat => ?_, Or.inr (eq_of_zero_answer h)⟩
        rw [not_isFloat hc (Or.inr hunsigned)] at hfloat
        exact absurd hfloat Bool.false_ne_true
      · exact absurd h nofun
  · exact absurd h nofun

/-- The sign bit tells that a float is below zero only of numbers but zero. -/
theorem negative_float_answer_iff (hneg : y.signBit = true) :
    (∀ (x : FloatValue α) (r : α), x.number = some r → 0 ≤ r →
      decide (direction = .ne ∨ direction = .ge ∨ direction = .gt) = x.holds direction y) ↔
        constantWhen direction (.float y) := by
  cases y with
  | nan negative =>
    obtain rfl : negative = true := hneg
    have hanswer : decide (direction = .ne ∨ direction = .ge ∨ direction = .gt) = decide (direction = .ne) ↔
        direction ≠ .gt ∧ direction ≠ .ge := by
      cases direction <;> decide
    constructor
    · intro h
      exact hanswer.mp ((h (.zero false) 0 rfl le_rfl).trans (FloatValue.holds_of_not_number _ rfl))
    · intro h x r _ _
      exact (hanswer.mpr h).trans (FloatValue.holds_of_not_number x rfl).symm
  | zero negative =>
    obtain rfl : negative = true := hneg
    constructor
    · intro h
      have hself := (h (.zero false) 0 rfl le_rfl).trans (FloatValue.holds_of_number rfl rfl)
      change direction = .lt ∨ direction = .ge
      cases direction <;> simp_all [ComparisonDirection.holds]
    · intro h x r hr hle
      rw [FloatValue.holds_of_number hr rfl]
      rcases h with rfl | rfl
      · exact decide_eq_decide.mpr (iff_of_false (by decide) (not_lt.mpr hle))
      · exact decide_eq_decide.mpr (iff_of_true (by decide) hle)
  | ordered value ne_zero =>
    have hlt : value < 0 := of_decide_eq_true hneg
    refine iff_of_true (fun x r hr hle => ?_) trivial
    have hgt : value < r := hlt.trans_le hle
    rw [FloatValue.holds_of_number hr rfl]
    cases direction with
    | eq => exact decide_eq_decide.mpr (iff_of_false (by decide) hgt.ne')
    | ne => exact decide_eq_decide.mpr (iff_of_true (by decide) hgt.ne')
    | ge => exact decide_eq_decide.mpr (iff_of_true (by decide) hgt.le)
    | gt => exact decide_eq_decide.mpr (iff_of_true (by decide) hgt)
    | le => exact decide_eq_decide.mpr (iff_of_false (by decide) (not_le.mpr hgt))
    | lt => exact decide_eq_decide.mpr (iff_of_false (by decide) (not_lt.mpr hgt.le))

/-- The floats that may stand where no number is below zero. -/
theorem forall_nonNegative_iff {P : Element α → Prop} :
    (∀ x : Element α, x.InType .float → x.NonNegative → x.NoNan → P x) ↔
      ∀ (x : FloatValue α) (r : α), x.number = some r → 0 ≤ r → P (.float x) := by
  constructor
  · intro h x r hr hle
    refine h (.float x) trivial (fun n hn => ?_) (fun hnone => ?_)
    · rw [some.inj (hn.symm.trans hr)]
      exact hle
    · exact some_ne_none r (hr.symm.trans hnone)
  · intro h x hx hnonneg hnan
    cases x with
    | integer k => exact hx.elim
    | float x' =>
      obtain ⟨r, hr⟩ := ne_none_iff_exists'.mp hnan
      exact h x' r hr (hnonneg r hr)

theorem negative_answer_iff (hc : c.InType type) (hneg : c.isNegative = true) :
    (∀ x : Element α, x.InType type → x.NonNegative → (c.isFloat = true → x.NoNan) →
      decide (direction = .ne ∨ direction = .ge ∨ direction = .gt) = Element.holds direction x c) ↔
        constantWhen direction c := by
  cases type with
  | integer type =>
    cases c with
    | float y => exact hc.elim
    | integer m =>
      have hm : m < 0 := of_decide_eq_true hneg
      refine iff_of_true (fun x hx hnonneg _ => ?_) trivial
      cases x with
      | float x => exact hx.elim
      | integer k =>
        have hk : 0 ≤ k := hnonneg
        cases direction <;> refine decide_eq_decide.mpr ?_ <;> simp <;> omega
  | float =>
    cases c with
    | integer m => exact hc.elim
    | float y =>
      rw [← negative_float_answer_iff hneg]
      simp only [Element.isFloat, forall_const]
      exact forall_nonNegative_iff

theorem zero_answer {x : Element α} (hc : c.InType type) (hzero : c.isZero = true)
    (hdir : direction = .lt ∨ direction = .ge) (hx : x.InType type) (hnonneg : x.NonNegative)
    (hnan : c.isFloat = true → x.NoNan) : decide (direction = .ge) = Element.holds direction x c := by
  cases type with
  | integer type =>
    cases c with
    | float y => exact hc.elim
    | integer m =>
      obtain rfl : m = 0 := of_decide_eq_true hzero
      cases x with
      | float x => exact hx.elim
      | integer k =>
        rcases hdir with rfl | rfl
        · exact decide_eq_decide.mpr (iff_of_false (by decide) (not_lt.mpr hnonneg))
        · exact decide_eq_decide.mpr (iff_of_true rfl hnonneg)
  | float =>
    cases c with
    | integer m => exact hc.elim
    | float y =>
      have hy : y.number = some 0 := by
        cases y with
        | zero negative => rfl
        | nan negative | ordered value ne_zero => exact absurd hzero nofun
      refine (@forall_nonNegative_iff α _ _ fun x => decide (direction = .ge) = Element.holds direction x (.float y)).mpr
        (fun x' r hr hle => ?_) x hx hnonneg (hnan rfl)
      change decide (direction = .ge) = x'.holds direction y
      rw [FloatValue.holds_of_number hr hy]
      rcases hdir with rfl | rfl
      · exact decide_eq_decide.mpr (iff_of_false (by decide) (not_lt.mpr hle))
      · exact decide_eq_decide.mpr (iff_of_true rfl hle)

omit [LinearOrder α] in
theorem constantWhen_zero (hzero : c.isZero = true) (hdir : direction = .lt ∨ direction = .ge) :
    constantWhen direction c := by
  unfold constantWhen
  split
  · exact hdir
  · exact absurd hzero nofun
  · trivial

theorem exact_simplifyNonNegative_iff {n : Nat} (hc : c.InType op.type)
    (hn : op.guaranteedNonNegativeResult n = true) (h : op.simplifyNonNegative c splat direction n = some new) :
    (∀ env, op.Computes env → Replacement.holds op env new = Element.holds direction (env n) c) ↔
      constantWhen direction c := by
  obtain ⟨hnan, hanswer⟩ := eq_of_simplifyNonNegative hc h
  have hval : ∀ env, op.Computes env → c.isFloat = true → (env n).NoNan := fun env henv hfloat =>
    henv.noNan n (hnan hfloat)
  rcases hanswer with ⟨hneg, rfl⟩ | ⟨hzero, hdir, rfl⟩
  · rw [← negative_answer_iff hc hneg]
    constructor
    · intro h x hx hnonneg hxnan
      have hxnan' : x.NoNan := by
        cases x with
        | integer k => trivial
        | float x' =>
          refine hxnan ?_
          cases c with
          | float y => rfl
          | integer m =>
            cases htype : op.type with
            | float =>
              rw [htype] at hc
              exact hc.elim
            | integer type =>
              rw [htype] at hx
              exact hx.elim
      exact h (fun _ => x) ⟨fun _ => hx, fun _ _ => hnonneg, fun _ _ => hxnan'⟩
    · intro h env henv
      exact h (env n) (henv.inType n) (henv.nonNegative n hn) (hval env henv)
  · refine iff_of_true (fun env henv => ?_) (constantWhen_zero hzero hdir)
    exact zero_answer hc hzero hdir (henv.inType n) (henv.nonNegative n hn) (hval env henv)

theorem exact_simplifySides_iff (h : op.simplifySides = some new) : op.Exact new ↔ op.canonWhen := by
  unfold simplifySides at h
  unfold canonWhen
  split at h
  · next n c splat hlhs hrhs =>
    split at h
    · next hn =>
      have hc : c.InType op.type := op.constants _ (mem_cons_of_mem _ mem_cons_self) c splat hrhs
      rw [← exact_simplifyNonNegative_iff hc hn h]
      refine forall₂_congr fun env _ => ?_
      rw [CompareOp.holds, hlhs, hrhs]
      rfl
    · exact absurd h nofun
  · next c splat n hlhs hrhs =>
    split at h
    · next hn =>
      have hc : c.InType op.type := op.constants _ mem_cons_self c splat hlhs
      rw [← exact_simplifyNonNegative_iff hc hn h]
      refine forall₂_congr fun env _ => ?_
      rw [CompareOp.holds, hlhs, hrhs, holds_invertDirection]
      rfl
    · exact absurd h nofun
  · exact absurd h nofun

theorem exact_compareOpCanon_iff (h : op.compareOpCanon = some new) : op.Exact new ↔ op.canonWhen := by
  rcases or_eq_some_iff.mp h with h | ⟨-, h⟩
  · unfold foldConstants at h
    split at h
    · next c splat d splat' hlhs hrhs =>
      cases h
      rw [canonWhen, hlhs, hrhs]
      refine iff_of_true (fun env _ => ?_) trivial
      rw [CompareOp.holds, hlhs, hrhs]
      rfl
    · exact absurd h nofun
  · split at h
    · next hint =>
      rcases or_eq_some_iff.mp h with h | ⟨-, h⟩
      · rcases or_eq_some_iff.mp h with h | ⟨-, h⟩
        · exact iff_of_true (exact_sameOperands hint h).1 (exact_sameOperands hint h).2
        · exact iff_of_true (exact_moveConstant hint h).1 (exact_moveConstant hint h).2
      · exact exact_simplifySides_iff h
    · exact exact_simplifySides_iff h

end CompareOp

end CompareOpCanon

/-! ### All patterns -/

/-- The patterns for integers alone. -/
inductive Pattern
  | compareAbs | compareMul | compareNegateConstSimplify | compareSubtractConstSimplify | compareCleanup | compareExt

namespace Pattern

def rewrite : Pattern → CompareOp → Option Replacement
  | compareAbs => Comparisons.compareAbs
  | compareMul => Comparisons.compareMul
  | compareNegateConstSimplify => Comparisons.compareNegateConstSimplify
  | compareSubtractConstSimplify => Comparisons.compareSubtractConstSimplify
  | compareCleanup => Comparisons.compareCleanup
  | compareExt => Comparisons.compareExt

def ExactWhen : Pattern → CompareOp → Prop
  | compareAbs, op => absWhen op ∧ absWhen op.reversed
  | compareMul, op => mulWhen op ∧ mulWhen op.reversed
  | compareNegateConstSimplify, op => negateWhen op
  | compareSubtractConstSimplify, op => subtractWhen op
  | compareCleanup, op => cleanupWhen op
  | compareExt, op => extWhen op

theorem exact_rewrite_iff {pattern : Pattern} {op : CompareOp} {new : Replacement} (h : pattern.rewrite op = some new) :
    Exact op new ↔ pattern.ExactWhen op := by
  cases pattern with
  | compareAbs => exact exact_compareAbs_iff h
  | compareMul => exact exact_compareMul_iff h
  | compareNegateConstSimplify => exact exact_compareNegateConstSimplify_iff h
  | compareSubtractConstSimplify => exact exact_compareSubtractConstSimplify_iff h
  | compareCleanup => exact exact_compareCleanup_iff h
  | compareExt => exact exact_compareExt_iff h

end Pattern

/-- A rewritten comparison gives the same boolean for all operands exactly when nothing that matters wraps. -/
theorem comparisons_exact_iff {α : Type*} [LinearOrder α] [Zero α] :
    (∀ (pattern : Pattern) (op : CompareOp) (new : Replacement),
      pattern.rewrite op = some new → (Exact op new ↔ pattern.ExactWhen op)) ∧
    ∀ (op : CompareOpCanon.CompareOp α) (new : CompareOpCanon.Replacement),
      op.compareOpCanon = some new → (op.Exact new ↔ op.canonWhen) :=
  ⟨fun _ _ _ => Pattern.exact_rewrite_iff, fun _ _ => CompareOpCanon.CompareOp.exact_compareOpCanon_iff⟩

def compareInt32 (direction : ComparisonDirection) (lhs rhs : Operand) (hlhs : lhs.WellFormed ⟨32, false⟩)
    (hrhs : rhs.WellFormed ⟨32, false⟩) : CompareOp where
  type := ⟨32, false⟩
  direction := direction
  lhs := lhs
  rhs := rhs
  width_pos := by decide
  unsigned_of_bool := by decide
  lhs_wellFormed := hlhs
  rhs_wellFormed := hrhs

theorem wellFormed_bool (n : Nat) : (Operand.convert ⟨1, true⟩ (.argument n)).WellFormed ⟨32, false⟩ := by
  refine ⟨?_, by decide, by decide⟩
  intro element splat hmem
  exact absurd (mem_singleton.mp hmem) nofun

theorem wellFormed_abs (n : Nat) : (Operand.abs (.argument n)).WellFormed ⟨32, false⟩ := by
  refine ⟨?_, rfl⟩
  intro element splat hmem
  exact absurd (mem_singleton.mp hmem) nofun

theorem wellFormed_zero : (Operand.value (.constant 0 true)).WellFormed ⟨32, false⟩ := by
  refine ⟨?_, trivial⟩
  intro element splat hmem
  cases mem_singleton.mp hmem
  decide

/-- Whether an operand that is not negative is above minus one. -/
def aboveMinusOne : CompareOpCanon.CompareOp Int where
  type := .integer ⟨32, false⟩
  direction := .gt
  compareType := some .signed
  lhs := .value 0
  rhs := .constant (.integer (-1)) true
  guaranteedNonNegativeResult := fun _ => true
  guaranteedNoNanResult := fun _ => false
  fits := by
    intro kind hkind
    cases hkind
    exact ⟨32, rfl⟩
  constants := by
    intro o ho c splat hc
    subst hc
    cases mem_singleton.mp ((mem_cons.mp ho).resolve_left nofun)
    exact (by decide : IntType.wrap ⟨32, false⟩ (-1) = -1)

theorem comparisons_exact_abs :
    Exact (compareInt32 .eq (.abs (.argument 0)) (.value (.constant 0 true)) (wellFormed_abs 0) wellFormed_zero)
        (.compare .eq (.value (.argument 0)) (.value (.constant 0 true))) ∧
      aboveMinusOne.Exact (.constant true) :=
  ⟨((@comparisons_exact_iff Int _ _).1 .compareAbs _ _ rfl).mpr ⟨Or.inl (Or.inl rfl), trivial⟩,
    ((@comparisons_exact_iff Int _ _).2 aboveMinusOne _ rfl).mpr trivial⟩

/-- Two booleans that are both false are equal, but not both true. -/
theorem equal_booleans_not_and : ∃ new, Pattern.compareExt.rewrite
      (compareInt32 .eq (.convert ⟨1, true⟩ (.argument 0)) (.convert ⟨1, true⟩ (.argument 1)) (wellFormed_bool 0)
        (wellFormed_bool 1)) = some new ∧
    ¬Exact (compareInt32 .eq (.convert ⟨1, true⟩ (.argument 0)) (.convert ⟨1, true⟩ (.argument 1)) (wellFormed_bool 0)
      (wellFormed_bool 1)) new := by
  refine ⟨_, rfl, fun h => ?_⟩
  have hfalse := h (fun _ => 0) ⟨?_, ?_⟩
  · exact absurd hfalse (by decide)
  · exact forall_mem_singleton.mpr (IntType.wrap_zero _)
  · exact forall_mem_singleton.mpr (IntType.wrap_zero _)

end EnzymeJax.Comparisons
