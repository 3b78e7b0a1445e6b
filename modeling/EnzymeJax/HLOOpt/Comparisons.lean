import EnzymeJax.Library.WrappedOrder

/-!
# Comparisons of integers

The patterns that move an operation out of an operand of `stablehlo.compare`. Everything here works on
one element at a time, so that an operand is the integer it has there.
-/

namespace EnzymeJax.Comparisons

open List Option

inductive ComparisonDirection
  | eq | ne | ge | gt | le | lt
  deriving DecidableEq

namespace ComparisonDirection

def holds {α : Type*} [LinearOrder α] : ComparisonDirection → α → α → Bool
  | eq, x, y => decide (x = y)
  | ne, x, y => decide (x ≠ y)
  | ge, x, y => decide (y ≤ x)
  | gt, x, y => decide (y < x)
  | le, x, y => decide (x ≤ y)
  | lt, x, y => decide (x < y)

def reversedComparisonDirection : ComparisonDirection → ComparisonDirection
  | eq => eq
  | ne => ne
  | ge => le
  | gt => lt
  | le => ge
  | lt => gt

/-- The source has the table three times. -/
def reorderComparisionDirection : ComparisonDirection → ComparisonDirection := reversedComparisonDirection

def invertDirection : ComparisonDirection → ComparisonDirection := reversedComparisonDirection

/-- The directions that do not ask for an order. -/
def IsEquality (dir : ComparisonDirection) : Prop := dir = eq ∨ dir = ne

instance (dir : ComparisonDirection) : Decidable dir.IsEquality := inferInstanceAs (Decidable (_ ∨ _))

theorem holds_reversed {α : Type*} [LinearOrder α] (dir : ComparisonDirection) (x y : α) :
    dir.reversedComparisonDirection.holds x y = dir.holds y x := by
  cases dir with
  | eq => exact decide_eq_decide.mpr eq_comm
  | ne => exact decide_eq_decide.mpr ne_comm
  | ge | gt | le | lt => rfl

theorem reversed_reversed (dir : ComparisonDirection) :
    dir.reversedComparisonDirection.reversedComparisonDirection = dir := by
  cases dir <;> rfl

theorem isEquality_reversed (dir : ComparisonDirection) :
    dir.reversedComparisonDirection.IsEquality ↔ dir.IsEquality := by
  cases dir <;> decide

variable {x y x' y' : Int}

variable {dir : ComparisonDirection}

theorem holds_congr (hlt : x < y ↔ x' < y') (hgt : y < x ↔ y' < x') : dir.holds x y = dir.holds x' y' := by
  cases dir <;> exact decide_eq_decide.mpr (by omega)

/-- Where the order is the other way round, only the directions of equality compare alike. -/
theorem holds_opposite_iff (hlt : x < y ↔ y' < x') (hgt : y < x ↔ x' < y') (hne : x ≠ y) :
    dir.holds x y = dir.holds x' y' ↔ dir.IsEquality := by
  cases dir with
  | eq => exact iff_of_true (decide_eq_decide.mpr (by omega)) (Or.inl rfl)
  | ne => exact iff_of_true (decide_eq_decide.mpr (by omega)) (Or.inr rfl)
  | ge | gt | le | lt => exact iff_of_false (fun h => by have := decide_eq_decide.mp h; omega) (by decide)

/-- Close integers compare as before when they are cut off, except for the order of those cut off differently. -/
theorem holds_wrap_iff {type : IntType} (hclose : |x - y| < 2 ^ type.width) :
    dir.holds (type.wrap x) (type.wrap y) = dir.holds x y ↔ dir.IsEquality ∨ type.WrapsAlike x y := by
  have hclose' : |y - x| < 2 ^ type.width := by rwa [abs_sub_comm]
  by_cases halike : type.WrapsAlike x y
  · exact iff_of_true (holds_congr (IntType.wrap_lt_wrap_iff_of_wrapsAlike halike)
      (IntType.wrap_lt_wrap_iff_of_wrapsAlike halike.symm)) (Or.inr halike)
  · rw [or_iff_left halike]
    refine holds_opposite_iff (IntType.wrap_lt_wrap_iff_of_not_wrapsAlike halike hclose)
      (IntType.wrap_lt_wrap_iff_of_not_wrapsAlike (fun h => halike h.symm) hclose') ?_
    rw [Ne, IntType.wrap_eq_wrap_iff_of_abs_lt hclose]
    rintro rfl
    exact halike rfl

end ComparisonDirection

/-! ### Comparisons and what replaces them -/

/-- A value that nothing is looked up of but the elements of a constant, and whether they are all the same. -/
inductive Value
  | argument (number : Nat)
  | result (number : Nat)
  | constant (element : Int) (splat : Bool)
  deriving DecidableEq

/-- The element of a value, when those of all but constants are given. -/
def Value.element (env : Value → Int) : Value → Int
  | constant element _ => element
  | x => env x

def Value.InType (type : IntType) (env : Value → Int) (x : Value) : Prop :=
  type.wrap (x.element env) = x.element env

/-- An operand by the operation that made it. -/
inductive Operand
  | value (x : Value)
  | abs (x : Value)
  | neg (x : Value)
  | add (x y : Value)
  | subtract (x y : Value)
  | multiply (x y : Value)
  | convert (source : IntType) (x : Value)
  deriving DecidableEq

namespace Operand

def values : Operand → List Value
  | value x => [x]
  | abs x => [x]
  | neg x => [x]
  | add x y => [x, y]
  | subtract x y => [x, y]
  | multiply x y => [x, y]
  | convert _ x => [x]

/-- The type of the values of an operand of some type. -/
def valueType (type : IntType) : Operand → IntType
  | convert source _ => source
  | _ => type

def element (type : IntType) (env : Value → Int) : Operand → Int
  | value x => x.element env
  | abs x => type.wrap |x.element env|
  | neg x => type.wrap (-x.element env)
  | add x y => type.wrap (x.element env + y.element env)
  | subtract x y => type.wrap (x.element env - y.element env)
  | multiply x y => type.wrap (x.element env * y.element env)
  | convert _ x => type.wrap (x.element env)

/-- The integers that an operand's constants and the types of its values may be. -/
def WellFormed (type : IntType) (o : Operand) : Prop :=
  (∀ element splat, Value.constant element splat ∈ o.values → (o.valueType type).wrap element = element) ∧
    match o with
    | abs _ => type.unsigned = false
    | convert source _ => 0 < source.width ∧ (source.width = 1 → source.unsigned = true)
    | _ => True

def InType (type : IntType) (env : Value → Int) (o : Operand) : Prop :=
  ∀ x ∈ o.values, x.InType (o.valueType type) env

end Operand

/-- A comparison. Integers of one bit are the booleans. -/
structure CompareOp where
  type : IntType
  direction : ComparisonDirection
  lhs : Operand
  rhs : Operand
  width_pos : 0 < type.width
  unsigned_of_bool : type.width = 1 → type.unsigned = true
  lhs_wellFormed : lhs.WellFormed type
  rhs_wellFormed : rhs.WellFormed type

namespace CompareOp

variable (op : CompareOp)

def holds (env : Value → Int) : Bool :=
  op.direction.holds (op.lhs.element op.type env) (op.rhs.element op.type env)

def InType (env : Value → Int) : Prop := op.lhs.InType op.type env ∧ op.rhs.InType op.type env

def reversed : CompareOp where
  type := op.type
  direction := op.direction.reversedComparisonDirection
  lhs := op.rhs
  rhs := op.lhs
  width_pos := op.width_pos
  unsigned_of_bool := op.unsigned_of_bool
  lhs_wellFormed := op.rhs_wellFormed
  rhs_wellFormed := op.lhs_wellFormed

theorem holds_reversed (env : Value → Int) : op.reversed.holds env = op.holds env :=
  ComparisonDirection.holds_reversed ..

theorem reversed_reversed : op.reversed.reversed = op := by
  obtain ⟨type, direction, lhs, rhs⟩ := op
  simp only [reversed, ComparisonDirection.reversed_reversed]

theorem inType_reversed (env : Value → Int) : op.reversed.InType env ↔ op.InType env := And.comm

end CompareOp

/-- What takes the place of a comparison. It is undefined where an integer of the compiler overflows. -/
inductive Replacement
  | constant (element : Bool)
  | compare (direction : ComparisonDirection) (lhs rhs : Operand)
  | value (x : Value)
  | not (x : Value)
  | and (x y : Value)
  | undefined
  deriving DecidableEq

def Replacement.holds (type : IntType) (env : Value → Int) : Replacement → Option Bool
  | constant element => some element
  | compare direction lhs rhs => some (direction.holds (lhs.element type env) (rhs.element type env))
  | value x => some (decide (x.element env ≠ 0))
  | not x => some (decide (x.element env = 0))
  | and x y => some (decide (x.element env ≠ 0) && decide (y.element env ≠ 0))
  | undefined => none

/-- The replacement gives the same boolean for all values that the operands may have. -/
def Exact (op : CompareOp) (new : Replacement) : Prop :=
  ∀ env, op.InType env → new.holds op.type env = some (op.holds env)

theorem exact_reversed_iff {op : CompareOp} {new : Replacement} : Exact op.reversed new ↔ Exact op new := by
  refine forall_congr' fun env => ?_
  rw [op.inType_reversed, op.holds_reversed]
  rfl

/-! ### The patterns -/

def isZero : Operand → Bool
  | .value (.constant element splat) => splat && element == 0
  | _ => false

/-- What an absolute value compares like with zero. -/
def absReplacement (x : Value) (zero : Operand) : ComparisonDirection → Replacement
  | .lt => .constant false
  | .le => .compare .eq (.value x) zero
  | .ge => .constant true
  | .gt => .compare .ne (.value x) zero
  | .eq => .compare .eq (.value x) zero
  | .ne => .compare .ne (.value x) zero

def compareAbsLhs (op : CompareOp) : Option Replacement :=
  match op.lhs with
  | .abs x => if isZero op.rhs then some (absReplacement x op.rhs op.direction) else none
  | _ => none

def compareAbs (op : CompareOp) : Option Replacement := (compareAbsLhs op).or (compareAbsLhs op.reversed)

/-- The sign bit of an integer, also of an unsigned one. -/
def isNegative (type : IntType) (n : Int) : Bool := decide (IntType.wrap ⟨type.width, false⟩ n < 0)

def constantFactor : Value → Value → Option (Int × Value)
  | .constant c true, x => if c = 0 then none else some (c, x)
  | _, _ => none

def splitFactor (x y : Value) : Option (Int × Value) := (constantFactor x y).or (constantFactor y x)

def mulDirection (negative : Bool) : ComparisonDirection → ComparisonDirection
  | .lt => if negative then .gt else .lt
  | .le => if negative then .ge else .le
  | .gt => if negative then .lt else .gt
  | .ge => if negative then .le else .ge
  | .eq => .eq
  | .ne => .ne

/-- A product that is compared with zero. -/
def compareMulLhs (op : CompareOp) : Option Replacement :=
  match op.lhs with
  | .multiply x y =>
    if isZero op.rhs then
      (splitFactor x y).map fun split =>
        .compare (mulDirection (isNegative op.type split.1) op.direction) (.value split.2) op.rhs
    else none
  | _ => none

def compareMul (op : CompareOp) : Option Replacement := (compareMulLhs op).or (compareMulLhs op.reversed)

def compareNegateConstSimplify (op : CompareOp) : Option Replacement :=
  match op.lhs, op.rhs with
  | .neg x, .neg y => some (.compare op.direction (.value y) (.value x))
  | .neg (.result n), .value (.constant c splat) =>
    some (.compare op.direction.reversedComparisonDirection (.value (.result n)) (.neg (.constant c splat)))
  | .value (.constant c splat), .neg (.result n) =>
    some (.compare op.direction.reversedComparisonDirection (.neg (.constant c splat)) (.value (.result n)))
  | _, _ => none

def isConstant : Value → Bool
  | .constant _ _ => true
  | _ => false

def compareSubtractConstSimplify (op : CompareOp) : Option Replacement :=
  match op.lhs, op.rhs with
  | .subtract (.constant c splat) x, .value (.constant c2 splat2) =>
    if isConstant x then none
    else some (.compare op.direction.reversedComparisonDirection (.value x)
      (.subtract (.constant c splat) (.constant c2 splat2)))
  | _, _ => none

/-- A comparison with a new constant. -/
def compareWith (direction : ComparisonDirection) (x : Value) : Option Int → Replacement
  | some n => .compare direction (.value x) (.value (.constant n true))
  | none => .undefined

def compareCleanup (op : CompareOp) : Option Replacement :=
  if op.type = ⟨64, false⟩ then
    match op.lhs, op.rhs with
    | .add x (.constant c true), .value (.constant rhs true) =>
      some (compareWith op.direction x (IntType.int64 (rhs - c)))
    | .multiply x (.constant c true), .value (.constant rhs true) =>
      if c = -1 then
        some (compareWith op.direction.reorderComparisionDirection x (IntType.int64 (-rhs)))
      else none
    | _, _ => none
  else none

/-- A boolean that is converted, compared with a constant for equality. -/
def compareExtOne : Operand → Operand → Option Replacement
  | .convert source x, .value (.constant c true) =>
    if source.width = 1 then
      if c = 1 then some (.value x) else if c = 0 then some (.not x) else none
    else none
  | _, _ => none

def compareExt (op : CompareOp) : Option Replacement :=
  if op.direction = .eq then
    match op.lhs, op.rhs with
    | .convert source x, .convert source2 y =>
      if source.width = 1 ∧ source2.width = 1 then some (.and x y) else none
    | lhs, rhs => (compareExtOne lhs rhs).or (compareExtOne rhs lhs)
  else none

/-! ### When the patterns are exact -/

/-- A constant with some element. -/
def Value.ConstantWith (P : Int → Prop) : Value → Prop
  | .constant c _ => P c
  | _ => False

variable {P : Int → Prop}

theorem Value.constantWith_congr {P' : Int → Prop} {type : IntType} {x : Value}
    (hx : ∀ c splat, x = .constant c splat → type.wrap c = c) (h : ∀ n, type.wrap n = n → (P n ↔ P' n)) :
    x.ConstantWith P ↔ x.ConstantWith P' := by
  cases x with
  | constant c splat => exact h c (hx c splat rfl)
  | argument number | result number => exact Iff.rfl

theorem Value.element_of_constantWith {x : Value} (env : Value → Int) (h : x.ConstantWith P) :
    P (x.element env) := by
  cases x with
  | constant c splat => exact h
  | argument number | result number => exact h.elim

theorem forall_element_iff {type : IntType} {x : Value} {Q : Prop}
    (hx : ∀ c splat, x = .constant c splat → type.wrap c = c) (hall : (∀ n, type.wrap n = n → P n) ↔ Q) :
    (∀ env, x.InType type env → P (x.element env)) ↔ Q ∨ x.ConstantWith P := by
  cases x with
  | constant c splat =>
    constructor
    · intro h
      exact Or.inr (h (fun _ => 0) (hx c splat rfl))
    · rintro (h | h) env -
      · exact hall.mpr h c (hx c splat rfl)
      · exact h
  | argument number | result number =>
    rw [← hall]
    exact ⟨fun h => Or.inl fun n hn => h (fun _ => n) hn, fun h env => (h.resolve_right id) _⟩

section

variable {op : CompareOp} {new : Replacement}

theorem Operand.element_value (type : IntType) (env : Value → Int) (x : Value) :
    (Operand.value x).element type env = x.element env := rfl

variable {env : Value → Int} {x y : Value} {o : Operand} {splat splat' : Bool} {n m r : Int}

theorem Operand.inType_neg {type : IntType} :
    (Operand.neg x).InType type env ↔ x.InType type env := forall_mem_singleton

theorem eq_of_isZero (h : isZero o = true) : ∃ splat, o = .value (.constant 0 splat) := by
  unfold isZero at h
  split at h
  · rw [Bool.and_eq_true, beq_iff_eq] at h
    rw [h.2]
    exact ⟨_, rfl⟩
  · exact absurd h Bool.false_ne_true

theorem Operand.WellFormed.wrap_constant {type : IntType} (h : o.WellFormed type) {c : Int}
    (hmem : .constant c splat ∈ o.values) : (o.valueType type).wrap c = c := h.1 c splat hmem

theorem Operand.WellFormed.inType_constant {type : IntType} {c : Int}
    (h : (Operand.value (.constant c splat)).WellFormed type) (env : Value → Int) :
    (Operand.value (.constant c splat)).InType type env := by
  intro x hx
  rw [mem_singleton.mp hx]
  exact h.wrap_constant mem_cons_self

/-- The comparison of one value with constants, whose replacement compares the same without cutting off. -/
theorem exact_iff {Q : Prop} {left right : Int → Int} (hin : ∀ env, op.InType env ↔ x.InType op.type env)
    (hx : ∀ c splat, x = .constant c splat → op.type.wrap c = c) (hold : ∀ env, op.holds env =
      op.direction.holds (op.type.wrap (left (x.element env))) (op.type.wrap (right (x.element env))))
    (hnew : ∀ env, x.InType op.type env →
      new.holds op.type env = some (op.direction.holds (left (x.element env)) (right (x.element env))))
    (hclose : ∀ n, op.type.wrap n = n → |left n - right n| < 2 ^ op.type.width)
    (hall : (∀ n, op.type.wrap n = n → op.type.WrapsAlike (left n) (right n)) ↔ Q) :
    Exact op new ↔ op.direction.IsEquality ∨ Q ∨ x.ConstantWith fun n => op.type.WrapsAlike (left n) (right n) := by
  have hpoint : Exact op new ↔ ∀ env, x.InType op.type env →
      op.direction.IsEquality ∨ op.type.WrapsAlike (left (x.element env)) (right (x.element env)) := by
    refine forall_congr' fun env => ?_
    rw [hin]
    refine imp_congr_right fun henv => ?_
    rw [hnew env henv, hold, some.injEq, eq_comm]
    exact ComparisonDirection.holds_wrap_iff (hclose _ henv)
  rw [hpoint]
  by_cases hdir : op.direction.IsEquality
  · exact iff_of_true (fun _ _ => Or.inl hdir) (Or.inl hdir)
  · simp only [hdir, false_or]
    exact forall_element_iff hx hall

/-! #### Absolute values -/

/-- The absolute value of the lowest integer is that integer. -/
def absWhen (op : CompareOp) : Prop :=
  match op.lhs with
  | .abs x => op.direction.IsEquality ∨ x.ConstantWith (· ≠ op.type.lowest)
  | _ => True

theorem wrapsAlike_iff_of_fits {type : IntType} (hm : type.wrap m = m) :
    type.WrapsAlike n m ↔ type.wrap n = n := by
  rw [IntType.WrapsAlike, hm]
  omega

theorem wrap_abs_eq_iff {type : IntType} (hwidth : 0 < type.width) (hsigned : type.unsigned = false)
    (hn : type.wrap n = n) : type.wrap |n| = |n| ↔ n ≠ type.lowest := by
  have hrange := (IntType.wrap_eq_self_iff hwidth).mp hn
  have hlowest := IntType.lowest_cases hwidth
  rw [hsigned] at hlowest
  have hhalf := (hlowest.resolve_left fun h => Bool.false_ne_true h.1).2
  rw [IntType.wrap_eq_self_iff hwidth]
  rcases abs_cases n with h | h
  · omega
  · omega

theorem holds_absReplacement {type : IntType} {zero : Operand} (x : Value) (hzero : zero.element type env = 0)
    (direction : ComparisonDirection) :
    (absReplacement x zero direction).holds type env = some (direction.holds |x.element env| 0) := by
  have heq := abs_eq_zero (a := x.element env)
  have hpos := abs_pos (a := x.element env)
  have hnonneg := abs_nonneg (x.element env)
  cases direction <;>
    simp only [absReplacement, Replacement.holds, Operand.element_value, ComparisonDirection.holds, hzero,
      some.injEq, decide_eq_decide, true_eq_decide_iff, false_eq_decide_iff] <;> omega

theorem exact_compareAbsLhs_iff (h : compareAbsLhs op = some new) : Exact op new ↔ absWhen op := by
  unfold compareAbsLhs at h
  split at h
  · next x hlhs =>
    split at h
    · next hzero =>
      obtain ⟨splat, hrhs⟩ := eq_of_isZero hzero
      have hwf : (Operand.abs x).WellFormed op.type := hlhs ▸ op.lhs_wellFormed
      have hconst : (Operand.value (.constant 0 splat)).WellFormed op.type := hrhs ▸ op.rhs_wellFormed
      have hx : ∀ c splat, x = .constant c splat → op.type.wrap c = c := by
        rintro c splat rfl
        exact hwf.wrap_constant mem_cons_self
      have hzero := op.type.wrap_zero
      have hlow := IntType.wrap_lowest op.width_pos
      have hwrap : ∀ n, op.type.wrap n = n → (op.type.WrapsAlike |n| 0 ↔ n ≠ op.type.lowest) := fun n hn =>
        (wrapsAlike_iff_of_fits hzero).trans (wrap_abs_eq_iff op.width_pos hwf.2 hn)
      have hin : ∀ env, op.InType env ↔ x.InType op.type env := by
        intro env
        rw [CompareOp.InType, hlhs, hrhs, and_iff_left (hconst.inType_constant env)]
        exact forall_mem_singleton
      have hold : ∀ env, op.holds env = op.direction.holds (op.type.wrap |x.element env|) (op.type.wrap 0) := by
        intro env
        rw [CompareOp.holds, hlhs, hrhs, hzero]
        rfl
      have hnew : ∀ env, x.InType op.type env →
          new.holds op.type env = some (op.direction.holds |x.element env| 0) := by
        intro env _
        rw [← some.inj h]
        exact holds_absReplacement x (by rw [hrhs]; rfl) _
      have hclose : ∀ n, op.type.wrap n = n → |(|n| - 0)| < 2 ^ op.type.width := by
        intro n hn
        rw [sub_zero, abs_abs, ← sub_zero n]
        exact IntType.abs_sub_lt hn hzero
      have hall : (∀ n, op.type.wrap n = n → op.type.WrapsAlike |n| 0) ↔ False :=
        iff_false_intro fun hall => (hwrap _ hlow).mp (hall _ hlow) rfl
      rw [exact_iff hin hx hold hnew hclose hall, absWhen, hlhs, false_or, Value.constantWith_congr hx hwrap]
    · exact absurd h nofun
  · exact absurd h nofun

theorem exact_two_sides {side : CompareOp → Option Replacement} {cond : CompareOp → Prop}
    (hside : ∀ op new, side op = some new → (Exact op new ↔ cond op))
    (hother : ∀ op new, side op = some new → cond op.reversed)
    (h : (side op).or (side op.reversed) = some new) : Exact op new ↔ cond op ∧ cond op.reversed := by
  rcases or_eq_some_iff.mp h with h | h
  · rw [hside op new h, and_iff_left (hother op new h)]
  · have hcond := hother op.reversed new h.2
    rw [op.reversed_reversed] at hcond
    rw [← exact_reversed_iff, hside op.reversed new h.2, and_iff_right hcond]

theorem exact_compareAbs_iff (h : compareAbs op = some new) : Exact op new ↔ absWhen op ∧ absWhen op.reversed := by
  refine exact_two_sides (fun op new => exact_compareAbsLhs_iff) ?_ h
  intro op new h
  unfold compareAbsLhs at h
  split at h
  · split at h
    · next hzero =>
      obtain ⟨splat, hrhs⟩ := eq_of_isZero hzero
      change match op.rhs with | .abs x => _ | _ => True
      rw [hrhs]
      trivial
    · exact absurd h nofun
  · exact absurd h nofun

/-! #### Products -/

/-- The constant factor as the sign bit has it. -/
def signedFactor (type : IntType) (c : Int) : Int := IntType.wrap ⟨type.width, false⟩ c

/-- The constant factors that keep all integers on their side of zero. -/
def mulExact (type : IntType) (direction : ComparisonDirection) (c : Int) : Prop :=
  if direction.IsEquality then Odd c
  else if type.unsigned then isNegative type c = false ∧ (direction = .lt ∨ direction = .ge ∨ Odd c)
  else c = 1

/-- A product of constants is only one integer. -/
def mulWhen (op : CompareOp) : Prop :=
  match op.lhs with
  | .multiply x y => ∀ split ∈ splitFactor x y, mulExact op.type op.direction split.1 ∨
      split.2.ConstantWith fun n => op.direction.holds (op.type.wrap (n * split.1)) 0 =
        op.direction.holds (n * signedFactor op.type split.1) 0
  | _ => True

theorem holds_zero_iff {direction : ComparisonDirection} : direction.holds n 0 = direction.holds m 0 ↔
      match direction with
      | .eq | .ne => n = 0 ↔ m = 0
      | .lt | .ge => n < 0 ↔ m < 0
      | .gt | .le => 0 < n ↔ 0 < m := by
  cases direction <;> simp only [ComparisonDirection.holds, decide_eq_decide] <;> omega

theorem holds_mulDirection {direction : ComparisonDirection} {c : Int} (hc : c ≠ 0) :
    (mulDirection (decide (c < 0)) direction).holds n 0 = direction.holds (n * c) 0 := by
  rcases lt_or_gt_of_ne hc with hneg | hpos
  · rw [decide_eq_true hneg]
    have hlt : n * c < 0 ↔ 0 < n := by rw [mul_neg_iff]; omega
    have hgt : 0 < n * c ↔ n < 0 := by rw [mul_pos_iff]; omega
    cases direction <;> simp only [mulDirection, ComparisonDirection.holds, if_true, decide_eq_decide] <;> omega
  · rw [decide_eq_false (not_lt.mpr hpos.le)]
    have hlt : n * c < 0 ↔ n < 0 := by rw [mul_neg_iff]; omega
    have hgt : 0 < n * c ↔ 0 < n := by rw [mul_pos_iff]; omega
    cases direction <;> simp only [mulDirection, ComparisonDirection.holds, Bool.false_eq_true, if_false,
      decide_eq_decide] <;> omega

theorem signedFactor_ne_zero {type : IntType} {c : Int} (hc : type.wrap c = c) (hzero : c ≠ 0) :
    signedFactor type c ≠ 0 := by
  intro h
  have hdvd : (2 ^ type.width : Int) ∣ c := (@IntType.wrap_eq_zero_iff ⟨type.width, false⟩ c).mp h
  exact hzero (hc.symm.trans (IntType.wrap_eq_zero_iff.mpr hdvd))

theorem signedFactor_signed {type : IntType} {c : Int} (hsigned : type.unsigned = false) (hc : type.wrap c = c) :
    signedFactor type c = c := by
  obtain ⟨width, unsigned⟩ := type
  cases hsigned
  exact hc

section

variable {type : IntType} {direction : ComparisonDirection} {c : Int} (hwidth : 0 < type.width)

include hwidth

theorem forall_holds_mul_signed_iff (hsigned : type.unsigned = false) (hc : type.wrap c = c) (hzero : c ≠ 0)
    (hdir : ¬direction.IsEquality) :
    (∀ n, type.wrap n = n → direction.holds (type.wrap (n * c)) 0 = direction.holds (n * c) 0) ↔ c = 1 := by
  constructor
  · intro h
    by_contra hone
    obtain ⟨n, hn, hlow, hhigh⟩ := IntType.exists_mul_overflow hwidth hsigned hc hzero hone
    have hlowest := IntType.lowest_cases hwidth
    rw [hsigned] at hlowest
    have hhalf := (hlowest.resolve_left fun h => Bool.false_ne_true h.1).2
    have hpos := IntType.two_le_modulus hwidth
    have hwrap : type.wrap (n * c) = n * c - 2 ^ type.width :=
      IntType.wrap_eq_of_dvd hwidth (by rw [Int.sub_sub_self]) (by omega) (by omega)
    have hside := holds_zero_iff.mp (h n hn)
    rw [hwrap] at hside
    cases direction with
    | eq => exact hdir (Or.inl rfl)
    | ne => exact hdir (Or.inr rfl)
    | ge | gt | le | lt => omega
  · rintro rfl n hn
    rw [mul_one, hn]

theorem forall_holds_mul_unsigned_iff (hunsigned : type.unsigned = true) (hc : type.wrap c = c) (hzero : c ≠ 0)
    (hdir : ¬direction.IsEquality) :
    (∀ n, type.wrap n = n → direction.holds (type.wrap (n * c)) 0 = direction.holds (n * signedFactor type c) 0) ↔
      isNegative type c = false ∧ (direction = .lt ∨ direction = .ge ∨ Odd c) := by
  have hlowest := IntType.lowest_cases hwidth
  rw [hunsigned] at hlowest
  have hlow := (hlowest.resolve_right fun h => Bool.false_ne_true h.1.symm).2
  have hnonneg : ∀ n, 0 ≤ type.wrap n := fun n => hlow ▸ IntType.lowest_le_wrap hwidth n
  rw [isNegative, decide_eq_false_iff_not]
  change _ ↔ ¬signedFactor type c < 0 ∧ _
  by_cases hneg : signedFactor type c < 0
  · refine iff_of_false (fun h => ?_) fun h => h.1 hneg
    have hpos := IntType.two_le_modulus hwidth
    have hside := holds_zero_iff.mp (h 1 ((IntType.wrap_eq_self_iff hwidth).mpr (by omega)))
    have hcpos := hnonneg c
    rw [one_mul, one_mul, hc] at hside
    rw [hc] at hcpos
    cases direction with
    | eq => exact hdir (Or.inl rfl)
    | ne => exact hdir (Or.inr rfl)
    | ge | gt | le | lt => omega
  · have hfactor := signedFactor_ne_zero hc hzero
    have hpos : 0 < signedFactor type c := by omega
    have hlt : ∀ n, type.wrap n = n → (type.wrap (n * c) < 0 ↔ n * signedFactor type c < 0) := by
      intro n hn
      have hmul := Int.mul_nonneg (hn ▸ hnonneg n) hpos.le
      have hwrap := hnonneg (n * c)
      omega
    have hgt : ∀ n, type.wrap n = n → ((0 < type.wrap (n * c) ↔ 0 < n * signedFactor type c) ↔
        (type.wrap (n * c) = 0 ↔ n = 0)) := by
      intro n hn
      have hn0 := hn ▸ hnonneg n
      have hmul := Int.mul_nonneg hn0 hpos.le
      have hwrap := hnonneg (n * c)
      have hmulpos : 0 < n * signedFactor type c ↔ 0 < n := mul_pos_iff_of_pos_right hpos
      omega
    rw [and_iff_right hneg, forall₂_congr fun n _ => holds_zero_iff, ← IntType.forall_wrap_mul_eq_zero_iff hwidth]
    cases direction with
    | eq => exact absurd (Or.inl rfl) hdir
    | ne => exact absurd (Or.inr rfl) hdir
    | ge => exact iff_of_true hlt (Or.inr (Or.inl rfl))
    | lt => exact iff_of_true hlt (Or.inl rfl)
    | gt | le =>
      rw [or_iff_right (by decide), or_iff_right (by decide)]
      exact forall₂_congr hgt

theorem forall_holds_mul_iff (hc : type.wrap c = c) (hzero : c ≠ 0) : (∀ n, type.wrap n = n →
      direction.holds (type.wrap (n * c)) 0 = direction.holds (n * signedFactor type c) 0) ↔
      mulExact type direction c := by
  have hsrc : ∀ n, n * signedFactor type c = 0 ↔ n = 0 := fun n =>
    mul_eq_zero.trans (or_iff_left (signedFactor_ne_zero hc hzero))
  unfold mulExact
  split
  · next hdir =>
    rw [← IntType.forall_wrap_mul_eq_zero_iff hwidth]
    refine forall₂_congr fun n _ => ?_
    rw [holds_zero_iff]
    rcases hdir with rfl | rfl
    · rw [hsrc]
    · rw [hsrc]
  · next hdir =>
    split
    · next hunsigned => exact forall_holds_mul_unsigned_iff hwidth hunsigned hc hzero hdir
    · next hsigned =>
      rw [Bool.not_eq_true] at hsigned
      rw [signedFactor_signed hsigned hc]
      exact forall_holds_mul_signed_iff hwidth hsigned hc hzero hdir

end

theorem eq_some_of_splitFactor {rest : Value} {c : Int} (h : splitFactor x y = some (c, rest)) :
    c ≠ 0 ∧ ∃ splat, x = .constant c splat ∧ y = rest ∨ y = .constant c splat ∧ x = rest := by
  have hone : ∀ {x y}, constantFactor x y = some (c, rest) → c ≠ 0 ∧ x = .constant c true ∧ y = rest := by
    intro x y h
    unfold constantFactor at h
    split at h
    · split at h
      · exact absurd h nofun
      · next hc =>
        cases h
        exact ⟨hc, rfl, rfl⟩
    · exact absurd h nofun
  rcases or_eq_some_iff.mp h with h | h
  · exact ⟨(hone h).1, true, Or.inl (hone h).2⟩
  · exact ⟨(hone h.2).1, true, Or.inr (hone h.2).2⟩

theorem exact_compareMulLhs_iff (h : compareMulLhs op = some new) : Exact op new ↔ mulWhen op := by
  unfold compareMulLhs at h
  split at h
  · next x y hlhs =>
    split at h
    · next hzero =>
      obtain ⟨splat, hrhs⟩ := eq_of_isZero hzero
      obtain ⟨⟨c, rest⟩, hsplit, hnew⟩ := map_eq_some_iff.mp h
      obtain ⟨hc, hfactors⟩ := eq_some_of_splitFactor hsplit
      have hwf : (Operand.multiply x y).WellFormed op.type := hlhs ▸ op.lhs_wellFormed
      have hconst : (Operand.value (.constant 0 splat)).WellFormed op.type := hrhs ▸ op.rhs_wellFormed
      have hfits : op.type.wrap c = c := by
        obtain ⟨_, ⟨rfl, -⟩ | ⟨rfl, -⟩⟩ := hfactors
        · exact hwf.wrap_constant mem_cons_self
        · exact hwf.wrap_constant (mem_cons_of_mem _ mem_cons_self)
      have hrest : ∀ d splat, rest = .constant d splat → op.type.wrap d = d := by
        rintro d splat rfl
        obtain ⟨_, ⟨-, rfl⟩ | ⟨-, rfl⟩⟩ := hfactors
        · exact hwf.wrap_constant (mem_cons_of_mem _ mem_cons_self)
        · exact hwf.wrap_constant mem_cons_self
      have hin : ∀ env, op.InType env ↔ rest.InType op.type env := by
        intro env
        rw [CompareOp.InType, hlhs, hrhs, and_iff_left (hconst.inType_constant env)]
        refine (forall_mem_cons.trans (and_congr_right' forall_mem_singleton)).trans ?_
        obtain ⟨_, ⟨rfl, rfl⟩ | ⟨rfl, rfl⟩⟩ := hfactors
        · exact and_iff_right hfits
        · exact and_iff_left hfits
      have hpoint : Exact op new ↔ ∀ env, rest.InType op.type env →
          op.direction.holds (op.type.wrap (rest.element env * c)) 0 =
            op.direction.holds (rest.element env * signedFactor op.type c) 0 := by
        refine forall_congr' fun env => ?_
        rw [hin]
        refine imp_congr_right fun henv => ?_
        have hproduct : op.lhs.element op.type env = op.type.wrap (rest.element env * c) := by
          rw [hlhs]
          obtain ⟨_, ⟨rfl, rfl⟩ | ⟨rfl, rfl⟩⟩ := hfactors
          · exact congrArg op.type.wrap (Int.mul_comm ..)
          · rfl
        rw [← hnew, CompareOp.holds, hproduct, hrhs, ← holds_mulDirection (signedFactor_ne_zero hfits hc)]
        exact some_inj.trans eq_comm
      rw [hpoint, forall_element_iff hrest (forall_holds_mul_iff op.width_pos hfits hc), mulWhen, hlhs]
      constructor
      · intro h split hmem
        obtain rfl : split = (c, rest) := some.inj (hmem.symm.trans hsplit)
        exact h
      · intro h
        exact h (c, rest) hsplit
    · exact absurd h nofun
  · exact absurd h nofun

theorem exact_compareMul_iff (h : compareMul op = some new) : Exact op new ↔ mulWhen op ∧ mulWhen op.reversed := by
  refine exact_two_sides (fun op new => exact_compareMulLhs_iff) ?_ h
  intro op new h
  unfold compareMulLhs at h
  split at h
  · split at h
    · next hzero =>
      obtain ⟨splat, hrhs⟩ := eq_of_isZero hzero
      change match op.rhs with | .multiply x y => _ | _ => True
      rw [hrhs]
      trivial
    · exact absurd h nofun
  · exact absurd h nofun

/-! #### Negations and subtractions -/

/-- Constants of two values. -/
def Value.ConstantsWith (P : Int → Int → Prop) : Value → Value → Prop
  | .constant c _, .constant d _ => P c d
  | _, _ => False

/-- The lowest integer is its own negation. -/
def negateWhen (op : CompareOp) : Prop :=
  op.direction.IsEquality ∨
    match op.lhs, op.rhs with
    | .neg x, .neg y =>
      x = y ∨ Value.ConstantsWith (fun c d => c = op.type.lowest ↔ d = op.type.lowest) x y
    | _, _ => False

/-- A subtraction from the integer with all bits set only turns the bits over. -/
def subtractWhen (op : CompareOp) : Prop :=
  op.direction.IsEquality ∨
    match op.lhs with
    | .subtract (.constant c _) _ => c = op.type.wrap (-1)
    | _ => False

theorem not_constantWith (hx : isConstant x = false) : ¬x.ConstantWith P := by
  cases x with
  | constant c splat => exact absurd hx nofun
  | argument number | result number => exact id

theorem exact_of_reflection {c k : Int} (hx : isConstant x = false) (hc : op.type.wrap c = c)
    (hk : op.type.wrap k = k) (hin : ∀ env, op.InType env ↔ x.InType op.type env)
    (hold : ∀ env, op.holds env = op.direction.holds (op.type.wrap (c - x.element env)) k)
    (hnew : ∀ env, new.holds op.type env = some (op.direction.holds (op.type.wrap (c - k)) (x.element env))) :
    Exact op new ↔ op.direction.IsEquality ∨ c = op.type.wrap (-1) := by
  have hwrap := op.type.wrap_wrap (c - k)
  have hback : op.type.wrap (c - op.type.wrap (c - k)) = k := by
    refine (IntType.wrap_eq_wrap_iff.mpr ?_).trans hk
    have hdvd := (op.type.dvd_wrap_sub (c - k)).neg_right
    rwa [show -(op.type.wrap (c - k) - (c - k)) = c - op.type.wrap (c - k) - k by omega] at hdvd
  have hconst : ∀ d splat, x = .constant d splat → op.type.wrap d = d := by
    rintro d splat rfl
    exact absurd hx nofun
  rw [@exact_iff op new x _ (fun n => c - n) (fun _ => c - op.type.wrap (c - k)) hin hconst ?_ ?_ ?_
    (IntType.forall_wrapsAlike_sub_iff op.width_pos hc hwrap), or_iff_left (not_constantWith hx)]
  · intro env
    rw [hold, hback]
  · intro env _
    rw [hnew]
    exact congrArg some (ComparisonDirection.holds_congr (by omega) (by omega))
  · intro n hn
    have hclose := IntType.abs_sub_lt hwrap hn
    rwa [show c - n - (c - op.type.wrap (c - k)) = op.type.wrap (c - k) - n by omega]

theorem exists_differ {type : IntType} (hwidth : 0 < type.width) (hx : isConstant x = false) (hne : x ≠ y)
    (hy : ∀ c splat, y = .constant c splat → type.wrap c = c) :
    ∃ env, x.InType type env ∧ y.InType type env ∧ ¬(x.element env = type.lowest ↔ y.element env = type.lowest) := by
  have hpos := IntType.two_le_modulus hwidth
  have hlow := IntType.wrap_lowest hwidth
  have hnext : type.wrap (type.lowest + 1) = type.lowest + 1 :=
    (IntType.wrap_eq_self_iff hwidth).mpr ⟨by omega, by omega⟩
  obtain ⟨m, hm⟩ : ∃ m, y.element (fun _ => type.lowest) = m := ⟨_, rfl⟩
  obtain ⟨n, hn, hdiffer⟩ : ∃ n, type.wrap n = n ∧ ¬(n = type.lowest ↔ m = type.lowest) := by
    by_cases hmlow : m = type.lowest
    · exact ⟨_, hnext, by omega⟩
    · exact ⟨_, hlow, by omega⟩
  have hxn : x.element (fun v => if v = x then n else type.lowest) = n := by
    cases x with
    | constant c splat => exact absurd hx nofun
    | argument number | result number => exact if_pos rfl
  have hym : y.element (fun v => if v = x then n else type.lowest) = m := by
    rw [← hm]
    cases y with
    | constant c splat => rfl
    | argument number | result number => exact if_neg hne.symm
  refine ⟨fun v => if v = x then n else type.lowest, ?_, ?_, ?_⟩
  · rw [Value.InType, hxn, hn]
  · rw [Value.InType, hym, ← hm]
    cases y with
    | constant c splat => exact hy c splat rfl
    | argument number | result number => exact hlow
  · rwa [hxn, hym]

theorem exact_negations_iff (hlhs : op.lhs = .neg x) (hrhs : op.rhs = .neg y) :
    Exact op (.compare op.direction (.value y) (.value x)) ↔ op.direction.IsEquality ∨
      (x = y ∨ Value.ConstantsWith (fun c d => c = op.type.lowest ↔ d = op.type.lowest) x y) := by
  have hlwf : (Operand.neg x).WellFormed op.type := hlhs ▸ op.lhs_wellFormed
  have hrwf : (Operand.neg y).WellFormed op.type := hrhs ▸ op.rhs_wellFormed
  have hx : ∀ c splat, x = .constant c splat → op.type.wrap c = c := by
    rintro c splat rfl
    exact hlwf.wrap_constant mem_cons_self
  have hy : ∀ c splat, y = .constant c splat → op.type.wrap c = c := by
    rintro c splat rfl
    exact hrwf.wrap_constant mem_cons_self
  have hpoint : Exact op (.compare op.direction (.value y) (.value x)) ↔
      ∀ env, x.InType op.type env ∧ y.InType op.type env → op.direction.IsEquality ∨
        (x.element env = op.type.lowest ↔ y.element env = op.type.lowest) := by
    refine forall_congr' fun env => ?_
    rw [CompareOp.InType, hlhs, hrhs, Operand.inType_neg, Operand.inType_neg]
    refine imp_congr_right fun henv => ?_
    have hclose := IntType.abs_sub_lt henv.2 henv.1
    rw [show y.element env - x.element env = -x.element env - -y.element env by omega] at hclose
    have hsame : op.direction.holds (-x.element env) (-y.element env) =
        op.direction.holds (y.element env) (x.element env) :=
      ComparisonDirection.holds_congr (by omega) (by omega)
    rw [← IntType.wrapsAlike_neg_iff op.width_pos henv.1 henv.2, ← ComparisonDirection.holds_wrap_iff hclose,
      CompareOp.holds, hlhs, hrhs, hsame]
    exact some_inj.trans eq_comm
  rw [hpoint]
  by_cases hdir : op.direction.IsEquality
  · exact iff_of_true (fun _ _ => Or.inl hdir) (Or.inl hdir)
  simp only [hdir, false_or]
  constructor
  · intro h
    by_contra hcond
    rw [not_or] at hcond
    cases hxc : isConstant x with
    | false =>
      obtain ⟨env, hxin, hyin, hdiffer⟩ := exists_differ op.width_pos hxc hcond.1 hy
      exact hdiffer (h env ⟨hxin, hyin⟩)
    | true =>
      cases hyc : isConstant y with
      | false =>
        obtain ⟨env, hyin, hxin, hdiffer⟩ := exists_differ op.width_pos hyc (Ne.symm hcond.1) hx
        exact hdiffer (h env ⟨hxin, hyin⟩).symm
      | true =>
        cases x with
        | constant c splat =>
          cases y with
          | constant d splat' => exact hcond.2 (h (fun _ => 0) ⟨hx c splat rfl, hy d splat' rfl⟩)
          | argument number | result number => exact Bool.false_ne_true hyc
        | argument number | result number => exact Bool.false_ne_true hxc
  · rintro (rfl | h) env -
    · exact Iff.rfl
    · cases x with
      | constant c splat =>
        cases y with
        | constant d splat' => exact h
        | argument number | result number => exact h.elim
      | argument number | result number => exact h.elim

theorem exact_negation_iff {n : Nat} {c : Int} (hlhs : op.lhs = .neg (.result n))
    (hrhs : op.rhs = .value (.constant c splat)) (hnew : ∀ env, new.holds op.type env =
      some (op.direction.holds (op.type.wrap (-c)) ((Value.result n).element env))) :
    Exact op new ↔ op.direction.IsEquality := by
  have hconst : (Operand.value (.constant c splat)).WellFormed op.type := hrhs ▸ op.rhs_wellFormed
  have hc : op.type.wrap c = c := hconst.wrap_constant mem_cons_self
  rw [@exact_of_reflection op new (.result n) 0 c rfl op.type.wrap_zero hc,
    or_iff_left (IntType.wrap_neg_one_ne_zero op.width_pos).symm]
  · intro env
    rw [CompareOp.InType, hlhs, hrhs, and_iff_left (hconst.inType_constant env), Operand.inType_neg]
  · intro env
    rw [CompareOp.holds, hlhs, hrhs, Int.zero_sub]
    rfl
  · intro env
    rw [hnew, Int.zero_sub]

theorem exact_compareNegateConstSimplify_iff (h : compareNegateConstSimplify op = some new) :
    Exact op new ↔ negateWhen op := by
  unfold compareNegateConstSimplify at h
  unfold negateWhen
  split at h
  · next x y hlhs hrhs =>
    cases h
    rw [hlhs, hrhs]
    exact exact_negations_iff hlhs hrhs
  · next n c splat hlhs hrhs =>
    cases h
    rw [hlhs, hrhs]
    refine (exact_negation_iff hlhs hrhs fun env => ?_).trans (or_iff_left not_false).symm
    exact congrArg some (ComparisonDirection.holds_reversed ..)
  · next c splat n hlhs hrhs =>
    cases h
    rw [hlhs, hrhs, ← exact_reversed_iff]
    refine (exact_negation_iff hrhs hlhs fun env => ?_).trans
      ((ComparisonDirection.isEquality_reversed _).trans (or_iff_left not_false).symm)
    rfl
  · exact absurd h nofun

theorem exact_compareSubtractConstSimplify_iff (h : compareSubtractConstSimplify op = some new) :
    Exact op new ↔ subtractWhen op := by
  unfold compareSubtractConstSimplify at h
  split at h
  · next c splat x k splat' hlhs hrhs =>
    split at h
    · exact absurd h nofun
    · next hx =>
      cases h
      rw [Bool.not_eq_true] at hx
      have hwf : (Operand.subtract (.constant c splat) x).WellFormed op.type := hlhs ▸ op.lhs_wellFormed
      have hconst : (Operand.value (.constant k splat')).WellFormed op.type := hrhs ▸ op.rhs_wellFormed
      have hc : op.type.wrap c = c := hwf.wrap_constant mem_cons_self
      have hk : op.type.wrap k = k := hconst.wrap_constant mem_cons_self
      unfold subtractWhen
      rw [hlhs]
      refine exact_of_reflection hx hc hk ?_ ?_ ?_
      · intro env
        rw [CompareOp.InType, hlhs, hrhs, and_iff_left (hconst.inType_constant env)]
        exact forall_mem_cons.trans ((and_iff_right hc).trans forall_mem_singleton)
      · intro env
        rw [CompareOp.holds, hlhs, hrhs]
        rfl
      · intro env
        exact congrArg some (ComparisonDirection.holds_reversed ..)
  · exact absurd h nofun

/-! #### Cleanup -/

/-- A sum with a constant keeps its place only if it never overflows. -/
def cleanupWhen (op : CompareOp) : Prop :=
  match op.lhs, op.rhs with
  | .add x (.constant c _), .value (.constant rhs _) =>
    op.type.wrap (rhs - c) = rhs - c ∧ (op.direction.IsEquality ∨ c = 0 ∨
      x.ConstantWith fun n => op.type.wrap (n + c) = n + c)
  | .multiply x _, .value (.constant rhs _) =>
    op.type.wrap (-rhs) = -rhs ∧ (op.direction.IsEquality ∨ x.ConstantWith fun n => op.type.wrap (-n) = -n)
  | _, _ => True

theorem exact_compareWith_iff {direction : ComparisonDirection} (htype : op.type = ⟨64, false⟩)
    (hx : ∀ c splat, x = .constant c splat → op.type.wrap c = c) (hin : ∀ env, op.InType env ↔ x.InType op.type env) :
    Exact op (compareWith direction x (IntType.int64 n)) ↔
      op.type.wrap n = n ∧ Exact op (.compare direction (.value x) (.value (.constant n true))) := by
  rw [IntType.int64, ← htype]
  split
  · next hn => exact (and_iff_right hn).symm
  · next hn =>
    refine iff_of_false (fun h => ?_) fun h => hn h.1
    have hzero : x.InType op.type fun _ => 0 := by
      cases x with
      | constant c splat => exact hx c splat rfl
      | argument number | result number => exact op.type.wrap_zero
    exact some_ne_none _ (h _ ((hin _).mpr hzero)).symm

/-- What is known where only one value is no constant for sure. -/
structure OneValue (op : CompareOp) (x : Value) (c r : Int) : Prop where
  wrap_eq : ∀ d splat, x = .constant d splat → op.type.wrap d = d
  wrap_factor : op.type.wrap c = c
  wrap_rhs : op.type.wrap r = r
  inType_iff : ∀ env, op.InType env ↔ x.InType op.type env

theorem oneValue {c : Int} (hlhs : op.lhs = o) (hrhs : op.rhs = .value (.constant r splat'))
    (hvals : o.values = [x, .constant c splat]) (htype : o.valueType op.type = op.type) : OneValue op x c r := by
  have hwf : o.WellFormed op.type := hlhs ▸ op.lhs_wellFormed
  have hconst : (Operand.value (.constant r splat')).WellFormed op.type := hrhs ▸ op.rhs_wellFormed
  have hmem : ∀ d splat, .constant d splat ∈ o.values → op.type.wrap d = d := fun d splat hmem =>
    htype ▸ hwf.wrap_constant hmem
  rw [hvals] at hmem
  have hc : op.type.wrap c = c := hmem c splat (mem_cons_of_mem _ mem_cons_self)
  refine ⟨?_, hc, hconst.wrap_constant mem_cons_self, fun env => ?_⟩
  · rintro d splat rfl
    exact hmem d splat mem_cons_self
  · rw [CompareOp.InType, hlhs, hrhs, and_iff_left (hconst.inType_constant env), Operand.InType, hvals, htype]
    exact forall_mem_cons.trans (and_iff_left (forall_mem_singleton.mpr hc))

theorem exact_sum_iff {c : Int} (hlhs : op.lhs = .add x (.constant c splat))
    (hrhs : op.rhs = .value (.constant r splat')) (hone : OneValue op x c r) (hfits : op.type.wrap (r - c) = r - c) :
    Exact op (.compare op.direction (.value x) (.value (.constant (r - c) true))) ↔
      op.direction.IsEquality ∨ c = 0 ∨ x.ConstantWith fun n => op.type.wrap (n + c) = n + c := by
  have hall := IntType.forall_wrapsAlike_add_iff op.width_pos hone.wrap_factor hfits
  rw [Int.sub_add_cancel] at hall
  rw [@exact_iff op _ x _ (fun n => n + c) (fun _ => r) hone.inType_iff hone.wrap_eq ?_ ?_ ?_ hall,
    Value.constantWith_congr hone.wrap_eq fun n _ => wrapsAlike_iff_of_fits hone.wrap_rhs]
  · intro env
    rw [CompareOp.holds, hlhs, hrhs, hone.wrap_rhs]
    rfl
  · intro env _
    have hsame : op.direction.holds (x.element env) (r - c) = op.direction.holds (x.element env + c) r :=
      ComparisonDirection.holds_congr (by omega) (by omega)
    exact congrArg some hsame
  · intro n hn
    have hclose := IntType.abs_sub_lt hn hfits
    rwa [show n - (r - c) = n + c - r by omega] at hclose

theorem exact_negated_iff (hlhs : op.lhs = .multiply x (.constant (-1) splat))
    (hrhs : op.rhs = .value (.constant r splat')) (hone : OneValue op x (-1) r) (hfits : op.type.wrap (-r) = -r) :
    Exact op (.compare op.direction.reorderComparisionDirection (.value x) (.value (.constant (-r) true))) ↔
      op.direction.IsEquality ∨ x.ConstantWith (fun n => op.type.wrap (-n) = -n) := by
  have hlow := IntType.wrap_lowest op.width_pos
  have hpos := IntType.two_le_modulus op.width_pos
  have hnext : op.type.wrap (op.type.lowest + 1) = op.type.lowest + 1 :=
    (IntType.wrap_eq_self_iff op.width_pos).mpr ⟨by omega, by omega⟩
  have hall : (∀ n, op.type.wrap n = n → op.type.WrapsAlike (-n) r) ↔ False := by
    refine iff_false_intro fun h => ?_
    have hfirst := h _ hlow
    have hsecond := h _ hnext
    rw [← Int.neg_neg r, IntType.wrapsAlike_neg_iff op.width_pos (by assumption) hfits] at hfirst hsecond
    omega
  rw [@exact_iff op _ x _ (fun n => -n) (fun _ => r) hone.inType_iff hone.wrap_eq ?_ ?_ ?_ hall, false_or,
    Value.constantWith_congr hone.wrap_eq fun n _ => wrapsAlike_iff_of_fits hone.wrap_rhs]
  · intro env
    have hproduct : (Operand.multiply x (.constant (-1) splat)).element op.type env = op.type.wrap (-x.element env) :=
      congrArg op.type.wrap (Int.mul_neg_one _)
    rw [CompareOp.holds, hlhs, hrhs, hproduct, hone.wrap_rhs]
    rfl
  · intro env _
    have hsame : op.direction.holds (-r) (x.element env) = op.direction.holds (-x.element env) r :=
      ComparisonDirection.holds_congr (by omega) (by omega)
    exact congrArg some ((ComparisonDirection.holds_reversed ..).trans hsame)
  · intro n hn
    have hclose := IntType.abs_sub_lt hfits hn
    rwa [show -r - n = -n - r by omega] at hclose

theorem exact_compareCleanup_iff (h : compareCleanup op = some new) : Exact op new ↔ cleanupWhen op := by
  unfold compareCleanup at h
  split at h
  · next htype =>
    unfold cleanupWhen
    split at h
    · next x c rhs hlhs hrhs =>
      cases h
      have hone : OneValue op x c rhs := oneValue hlhs hrhs rfl rfl
      rw [hlhs, hrhs, exact_compareWith_iff htype hone.wrap_eq hone.inType_iff]
      exact and_congr_right fun hfits => exact_sum_iff hlhs hrhs hone hfits
    · next x c rhs hlhs hrhs =>
      split at h
      · next hc =>
        cases h
        subst hc
        have hone : OneValue op x (-1) rhs := oneValue hlhs hrhs rfl rfl
        rw [hlhs, hrhs, exact_compareWith_iff htype hone.wrap_eq hone.inType_iff]
        exact and_congr_right fun hfits => exact_negated_iff hlhs hrhs hone hfits
      · exact absurd h nofun
    · exact absurd h nofun
  · exact absurd h nofun

/-! #### Converted booleans -/

/-- Booleans are equal also where both are false. -/
def extWhen (op : CompareOp) : Prop :=
  match op.lhs, op.rhs with
  | .convert _ x, .convert _ y => x.ConstantWith (· = 1) ∨ y.ConstantWith (· = 1)
  | _, _ => True

theorem wrap_eq_of_bool {type : IntType} (hwidth : 0 < type.width)
    (hbool : type.width = 1 → type.unsigned = true) (hn : n = 0 ∨ n = 1) : type.wrap n = n := by
  have hlowest := IntType.lowest_cases hwidth
  have hfour : type.unsigned = false → (4 : Int) ≤ 2 ^ type.width := by
    intro hsigned
    have htwo : 2 ≤ type.width := by
      by_contra hlt
      exact Bool.false_ne_true (hsigned.symm.trans (hbool (by omega)))
    calc (4 : Int) = 2 ^ 2 := by norm_num
      _ ≤ 2 ^ type.width := pow_le_pow_right₀ (by omega) htwo
  have hpos := IntType.two_le_modulus hwidth
  rw [IntType.wrap_eq_self_iff hwidth]
  rcases hlowest with ⟨-, hlow⟩ | ⟨hsigned, hlow⟩
  · omega
  · have := hfour hsigned
    omega

theorem Value.InType.bool {source : IntType} (h : x.InType source env) (hone : source.width = 1)
    (hunsigned : source.unsigned = true) : x.element env = 0 ∨ x.element env = 1 := by
  obtain ⟨width, unsigned⟩ := source
  cases hone
  cases hunsigned
  have hrange := IntType.wrap_unsigned_eq_iff.mp h
  rw [pow_one] at hrange
  omega

theorem exact_of_compareExtOne (hdir : op.direction = .eq) (h : compareExtOne op.lhs op.rhs = some new) :
    Exact op new := by
  unfold compareExtOne at h
  split at h
  · next source x c hlhs hrhs =>
    split at h
    · next hwidth =>
      intro env henv
      have hwf : (Operand.convert source x).WellFormed op.type := hlhs ▸ op.lhs_wellFormed
      have hin : (Operand.convert source x).InType op.type env := hlhs ▸ henv.1
      have hbool := (forall_mem_singleton.mp hin).bool hwidth (hwf.2.2 hwidth)
      have hold : op.holds env = decide (x.element env = c) := by
        rw [CompareOp.holds, hdir, hlhs, hrhs]
        change decide (op.type.wrap (x.element env) = c) = _
        rw [wrap_eq_of_bool op.width_pos op.unsigned_of_bool hbool]
      rw [hold]
      split at h
      · next hone =>
        cases h
        exact congrArg some (decide_eq_decide.mpr (by omega))
      · split at h
        · next hzero =>
          cases h
          exact congrArg some (decide_eq_decide.mpr (by omega))
        · exact absurd h nofun
    · exact absurd h nofun
  · exact absurd h nofun

theorem exact_booleans_iff {source source' : IntType} (hdir : op.direction = .eq) (hlhs : op.lhs = .convert source x)
    (hrhs : op.rhs = .convert source' y) (hwidth : source.width = 1) (hwidth' : source'.width = 1) :
    Exact op (.and x y) ↔ x.ConstantWith (· = 1) ∨ y.ConstantWith (· = 1) := by
  have hlwf : (Operand.convert source x).WellFormed op.type := hlhs ▸ op.lhs_wellFormed
  have hrwf : (Operand.convert source' y).WellFormed op.type := hrhs ▸ op.rhs_wellFormed
  have hpoint : Exact op (.and x y) ↔ ∀ env, x.InType source env ∧ y.InType source' env →
      x.element env = 1 ∨ y.element env = 1 := by
    refine forall_congr' fun env => ?_
    rw [CompareOp.InType, hlhs, hrhs]
    refine (imp_congr_left (and_congr forall_mem_singleton forall_mem_singleton)).trans
      (imp_congr_right fun henv => ?_)
    have hx := henv.1.bool hwidth (hlwf.2.2 hwidth)
    have hy := henv.2.bool hwidth' (hrwf.2.2 hwidth')
    have hold : op.holds env = decide (x.element env = y.element env) := by
      rw [CompareOp.holds, hdir, hlhs, hrhs]
      change decide (op.type.wrap (x.element env) = op.type.wrap (y.element env)) = _
      rw [wrap_eq_of_bool op.width_pos op.unsigned_of_bool hx, wrap_eq_of_bool op.width_pos op.unsigned_of_bool hy]
    rw [hold]
    rcases hx with hx | hx <;> rcases hy with hy | hy <;> simp [Replacement.holds, hx, hy]
  have hzero : ∀ {source : IntType} {z : Value}, (Operand.convert source z).WellFormed op.type →
      z.InType source (fun _ => 0) ∧ (z.element (fun _ => 0) = 1 ↔ z.ConstantWith (· = 1)) := by
    intro source z hwf
    cases z with
    | constant c splat => exact ⟨hwf.wrap_constant mem_cons_self, Iff.rfl⟩
    | argument number | result number => exact ⟨source.wrap_zero, iff_of_false Int.zero_ne_one id⟩
  rw [hpoint]
  constructor
  · intro h
    exact (h _ ⟨(hzero hlwf).1, (hzero hrwf).1⟩).imp (hzero hlwf).2.mp (hzero hrwf).2.mp
  · intro h env _
    exact h.imp (Value.element_of_constantWith env) (Value.element_of_constantWith env)

theorem exact_compareExt_iff (h : compareExt op = some new) : Exact op new ↔ extWhen op := by
  unfold compareExt at h
  split at h
  · next hdir =>
    unfold extWhen
    split at h
    · next source x source' y hlhs hrhs =>
      split at h
      · next hwidths =>
        cases h
        exact exact_booleans_iff hdir hlhs hrhs hwidths.1 hwidths.2
      · exact absurd h nofun
    · refine iff_of_true ?_ ?_
      · rcases or_eq_some_iff.mp h with h | h
        · exact exact_of_compareExtOne hdir h
        · refine exact_reversed_iff.mp (exact_of_compareExtOne ?_ h.2)
          change op.direction.reversedComparisonDirection = .eq
          rw [hdir]
          rfl
      · trivial
  · exact absurd h nofun

end

end EnzymeJax.Comparisons
