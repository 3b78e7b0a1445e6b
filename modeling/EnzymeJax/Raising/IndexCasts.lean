import EnzymeJax.Raising.MaxSize

/-!
# Arithmetic moved across index casts

The rewrites of `CanonicalizeLoops` that do at `index` what an expression does at an integer type. Patterns that ask
an `index` for its bit width, which fails an assertion, are given at integer types.
-/

namespace EnzymeJax.CanonicalizeLoops

variable {t : IntTy} {w : Nat}

namespace Expr

/-- `maxSize` finds a bound, and `APInt::getMaxValue(w)` is not below it as a `uint64_t`. -/
def fits (w : Nat) (e : Expr t) : Bool := match e.maxSize with
  | none => false
  | some m => decide ((if m < 0 then m + 2 ^ 64 else m) ≤ 2 ^ w - 1)

def binOperands (op : ArithOp) : {t : IntTy} → Expr t → Option (Expr t × Expr t)
  | _, bin op' lhs rhs => if op' = op then some (lhs, rhs) else none
  | _, _ => none

def castUIOperand : {t : IntTy} → Expr t → Option (Expr .index)
  | _, indexCastUI x => some x
  | _, _ => none

/-- The operand of an `IndexCastUIOp` or an `IndexCastOp`. -/
def castOperand : {t : IntTy} → Expr t → Option (Expr .index)
  | _, indexCastUI x | _, indexCast x => some x
  | _, _ => none

end Expr

open EnzymeJax.CanonicalizeLoops.Expr

def extUIOfIndexUI : Expr (.int w) → Option (Expr (.int w))
  | @extUI v _ _ operand => do
    let x ← operand.castUIOperand.filter (fits v)
    some (indexCastUI x)
  | _ => none

def truncIOfIndexUI : Expr (.int w) → Option (Expr (.int w))
  | truncI _ operand => do
    let x ← operand.castUIOperand.filter (fits w)
    some (indexCastUI x)
  | _ => none

/-- A cast that fits on the left of a constant. -/
def indexOperands (op : ArithOp) (cast : Expr (.int w) → Option (Expr .index)) (e : Expr (.int w)) :
    Option (Expr .index × BitVec w) := do
  let (lhs, rhs) ← e.binOperands op
  let x ← (cast lhs).filter (fits w)
  let c ← rhs.constValue
  some (x, c)

def shrUIOfIndexUI (e : Expr (.int w)) : Option (Expr (.int w)) := do
  let (x, c) ← indexOperands .shrui castUIOperand e
  some (indexCastUI (bin .shrui x (const (c.setWidth 64))))

def divUIOfIndexUI (e : Expr (.int w)) : Option (Expr (.int w)) := do
  let (x, c) ← indexOperands .divui castUIOperand e
  if c.msb then none else some (indexCastUI (bin .divui x (const (c.setWidth 64))))

/-- Equal operands are equal expressions; at `index` the bound is not looked at. -/
def divMul (e : Expr t) : Option (Expr t) := do
  let (lhs, rhs) ← e.binOperands .divui
  let (x, y) ← lhs.binOperands .muli
  if lhs.maxSize = none ∨ t ≠ .index ∧ ¬lhs.fits t.width ∨ y ≠ rhs then none else some x

def addIOfIndexUI (e : Expr (.int w)) : Option (Expr (.int w)) := do
  let (x, c) ← indexOperands .addi castOperand e
  if c.msb then
    let (y, z) ← x.binOperands .addi
    let d ← z.constValue
    -- the sum of constants of two widths has the width of the first
    let v := c + d.setWidth w
    if v.msb then none else some (indexCastUI (bin .addi y (const (v.setWidth 64))))
  else some (indexCastUI (bin .addi x (const (c.setWidth 64))))

def subIOfIndexUI (e : Expr (.int w)) : Option (Expr (.int w)) := do
  let (lhs, rhs) ← e.binOperands .subi
  let x ← rhs.castUIOperand.filter (fits w)
  let c ← lhs.constValue
  if c = 0 then some (indexCast (bin .subi (const (c.signExtend 64)) x)) else none

def mulIOfIndexUI (e : Expr (.int w)) : Option (Expr (.int w)) := do
  let (x, c) ← indexOperands .muli castOperand e
  if c.msb then some (indexCast (bin .muli x (const (c.signExtend 64))))
  else some (indexCastUI (bin .muli x (const (c.setWidth 64))))

def shLIOfIndexUI (e : Expr (.int w)) : Option (Expr (.int w)) := do
  let (x, c) ← indexOperands .shli castUIOperand e
  some (indexCastUI (bin .shli x (const (c.setWidth 64))))

def addIOfDoubleIndex (e : Expr (.int w)) : Option (Expr (.int w)) := do
  let (lhs, rhs) ← e.binOperands .addi
  let x ← lhs.castOperand
  let y ← rhs.castOperand
  if w ≠ 64 then none
  else if lhs.castUIOperand = none ∨ rhs.castUIOperand = none then some (indexCast (bin .addi x y))
  else some (indexCastUI (bin .addi x y))

/-- The divisor and the factor where `val2` is `(val divui divisor) * factor`. -/
def remOperands (val val2 : Expr t) : Option (Expr t × BitVec t.width × BitVec t.width) := do
  let (div, rhs) ← val2.binOperands .muli
  let factor ← rhs.constValue
  let (lhs, rhs) ← div.binOperands .divui
  let divisor ← rhs.constValue
  if factor ≠ -divisor ∨ lhs ≠ val then none else some (val, divisor, factor)

def remMatch (e : Expr t) : Option (Expr t × BitVec t.width × BitVec t.width) := do
  let (lhs, rhs) ← e.binOperands .addi
  (remOperands lhs rhs).or (remOperands rhs lhs)

def toRem (e : Expr t) : Option (Expr t) := do
  let (val, divisor, factor) ← remMatch e
  some (bin .remui val (const (if factor.msb then divisor else factor)))

inductive Pattern where
  | ExtUIOfIndexUI
  | TruncIOfIndexUI
  | ShrUIOfIndexUI
  | DivUIOfIndexUI
  | DivMul
  | AddIOfIndexUI
  | SubIOfIndexUI
  | MulIOfIndexUI
  | ShLIOfIndexUI
  | AddIOfDoubleIndex
  | ToRem

def Pattern.matchAndRewrite : Pattern → {t : IntTy} → Expr t → Option (Expr t)
  | ExtUIOfIndexUI, .int _, e => extUIOfIndexUI e
  | TruncIOfIndexUI, .int _, e => truncIOfIndexUI e
  | ShrUIOfIndexUI, .int _, e => shrUIOfIndexUI e
  | DivUIOfIndexUI, .int _, e => divUIOfIndexUI e
  | DivMul, _, e => divMul e
  | AddIOfIndexUI, .int _, e => addIOfIndexUI e
  | SubIOfIndexUI, .int _, e => subIOfIndexUI e
  | MulIOfIndexUI, .int _, e => mulIOfIndexUI e
  | ShLIOfIndexUI, .int _, e => shLIOfIndexUI e
  | AddIOfDoubleIndex, .int _, e => addIOfDoubleIndex e
  | ToRem, _, e => toRem e
  | _, .index, _ => none

namespace Expr

variable {env : Env}

/-- No divisor is zero and no shift reaches the width. -/
def Defined (env : Env) : {t : IntTy} → Expr t → Prop
  | _, arg _ | _, const _ | _, iv _ _ => True
  | _, bin op lhs rhs => lhs.Defined env ∧ rhs.Defined env ∧ op.Defined (rhs.eval env)
  | _, indexCastUI x | _, indexCast x | _, extUI _ x | _, truncI _ x => x.Defined env

def operands : {t : IntTy} → Expr t → List (Σ s, Expr s)
  | _, bin _ lhs rhs => [⟨_, lhs⟩, ⟨_, rhs⟩]
  | _, indexCastUI x | _, indexCast x => [⟨_, x⟩]
  | _, extUI _ x | _, truncI _ x => [⟨_, x⟩]
  | _, _ => []

/-- The bounds of the operands and of their operands are right. -/
def Bounded (env : Env) (e : Expr t) : Prop :=
  ∀ y ∈ e.operands, ∀ x ∈ y :: y.2.operands, ∀ m, x.2.maxSize = some m → (x.2.eval env).toNat ≤ m

variable {op : ArithOp} {e : Expr (.int w)} {x : Expr .index}

theorem eq_bin_of_binOperands {e l r : Expr t} (h : e.binOperands op = some (l, r)) : e = bin op l r := by
  cases e with
  | bin op' lhs rhs =>
    simp only [binOperands, Option.ite_none_right_eq_some] at h
    obtain ⟨rfl, h⟩ := h
    cases h
    rfl
  | _ => cases h

theorem eq_of_indexOperands {cast : Expr (.int w) → Option (Expr .index)} {c : BitVec w}
    (h : indexOperands op cast e = some (x, c)) : ∃ lhs, e = bin op lhs (const c) ∧ cast lhs = some x ∧ x.fits w := by
  simp only [indexOperands, Option.bind_eq_bind, Option.bind_eq_some_iff, Option.filter_eq_some_iff, Prod.exists] at h
  obtain ⟨lhs, rhs, hop, x, ⟨hx, hfits⟩, c, hc, h⟩ := h
  cases h
  cases constValue_eq_some hc
  exact ⟨lhs, eq_bin_of_binOperands hop, hx, hfits⟩

theorem eq_of_castUIOperand (h : e.castUIOperand = some x) : e = indexCastUI x := by
  cases e with
  | indexCastUI operand => cases h; rfl
  | _ => cases h

theorem eval_of_castOperand (hw : w ≤ 64) (h : e.castOperand = some x) : e.eval env = (x.eval env).setWidth w := by
  cases e with
  | indexCastUI operand => cases h; rfl
  | indexCast operand => cases h; exact BitVec.signExtend_eq_setWidth_of_le _ hw
  | _ => cases h

theorem toNat_lt_of_fits {e : Expr t} {v v' : Nat} (hmax : e.Bounded env)
    (h : ⟨.int v', indexCastUI x⟩ ∈ e.operands) (hfits : x.fits v) : (x.eval env).toNat < 2 ^ v := by
  unfold fits at hfits
  split at hfits
  · cases hfits
  have hle : ((x.eval env).toNat : Int) ≤ _ := hmax _ h ⟨_, x⟩ (by simp [operands]) _ ‹_›
  have hfit := of_decide_eq_true hfits
  rw [if_neg (by omega)] at hfit
  have : ((x.eval env).toNat : Int) < (2 ^ v : Nat) := by
    push_cast
    omega
  exact_mod_cast this

end Expr

/-- Where a pattern keeps the value: the product does not wrap; the factor is negative, or takes the
same remainder as the divisor. -/
def Pattern.Exact (env : Env) (e : Expr t) : Pattern → Prop
  | DivMul => ∀ x y z, e = bin .divui (bin .muli x y) z →
    (x.eval env).toNat * (y.eval env).toNat < 2 ^ t.width
  | ToRem => ∀ val divisor factor, remMatch e = some (val, divisor, factor) →
    factor.msb ∨ val.eval env < factor ∨ divisor ≤ val.eval env ∧ divisor % factor = 0
  | _ => True

theorem setWidth_const (hw : w ≤ 64) (c : BitVec w) : (c.setWidth 64).setWidth w = c := by
  rw [BitVec.setWidth_setWidth (by omega), BitVec.setWidth_eq]

theorem setWidth_signExtend_const (hw : w ≤ 64) (c : BitVec w) : (c.signExtend 64).setWidth w = c := by
  ext i hi
  rw [BitVec.getElem_setWidth, BitVec.getLsbD_signExtend, if_pos hi, BitVec.getLsbD_eq_getElem hi]
  simp only [show i < 64 by omega, decide_true, Bool.true_and]

/-- What is cut off from `index` plays no part in sums, products and shifts to the left, and there is
nothing cut off of what fits. -/
theorem setWidth_eval (op : ArithOp) {x : BitVec 64} {c : BitVec w} (hop : op ≠ .subi ∧ op ≠ .remui) (hw : w ≤ 64)
    (hx : op = .divui ∨ op = .shrui → x.toNat < 2 ^ w) :
    (op.eval x (c.setWidth 64)).setWidth w = op.eval (x.setWidth w) c := by
  have hc : c.toNat < 2 ^ 64 := lt_of_lt_of_le c.isLt (Nat.pow_le_pow_right (by norm_num) hw)
  cases op with
  | addi => rw [ArithOp.eval, BitVec.setWidth_add _ _ hw, setWidth_const hw, ArithOp.eval]
  | muli => rw [ArithOp.eval, BitVec.setWidth_mul _ _ hw, setWidth_const hw, ArithOp.eval]
  | shli =>
    simp only [ArithOp.eval, BitVec.shiftLeft_eq', BitVec.toNat_setWidth]
    rw [BitVec.setWidth_shiftLeft_of_le hw, Nat.mod_eq_of_lt hc]
  | divui =>
    have hlt := hx (.inl rfl)
    apply BitVec.eq_of_toNat_eq
    simp only [ArithOp.eval, BitVec.toNat_setWidth, BitVec.toNat_udiv]
    rw [Nat.mod_eq_of_lt hlt, Nat.mod_eq_of_lt hc, Nat.mod_eq_of_lt ((Nat.div_le_self _ _).trans_lt hlt)]
  | shrui =>
    have hlt := hx (.inr rfl)
    apply BitVec.eq_of_toNat_eq
    simp only [ArithOp.eval, BitVec.toNat_setWidth, BitVec.ushiftRight_eq', BitVec.toNat_ushiftRight]
    rw [Nat.mod_eq_of_lt hlt, Nat.mod_eq_of_lt hc, Nat.mod_eq_of_lt ((Nat.shiftRight_le _ _).trans_lt hlt)]
  | subi => exact absurd rfl hop.1
  | remui => exact absurd rfl hop.2

section
variable {env : Env} {e e' : Expr (.int w)}

theorem eval_extUIOfIndexUI (h : extUIOfIndexUI e = some e') (hmax : e.Bounded env) :
    e'.eval env = e.eval env := by
  cases e with
  | extUI hv operand =>
    simp only [extUIOfIndexUI, Option.bind_eq_bind, Option.bind_eq_some_iff, Option.filter_eq_some_iff] at h
    obtain ⟨x, ⟨hx, hfits⟩, h⟩ := h
    cases eq_of_castUIOperand hx
    cases h
    have hlt := toNat_lt_of_fits hmax (List.mem_cons_self ..) hfits
    apply BitVec.eq_of_toNat_eq
    simp only [eval, BitVec.toNat_setWidth]
    rw [Nat.mod_eq_of_lt hlt]
  | _ => cases h

theorem eval_truncIOfIndexUI (h : truncIOfIndexUI e = some e') : e'.eval env = e.eval env := by
  cases e with
  | truncI hv operand =>
    simp only [truncIOfIndexUI, Option.bind_eq_bind, Option.bind_eq_some_iff, Option.filter_eq_some_iff] at h
    obtain ⟨x, ⟨hx, -⟩, h⟩ := h
    cases eq_of_castUIOperand hx
    cases h
    exact (BitVec.setWidth_setWidth_of_le _ hv.le).symm
  | _ => cases h

theorem eval_shrUIOfIndexUI (h : shrUIOfIndexUI e = some e') (hw : w ≤ 64) (hmax : e.Bounded env) :
    e'.eval env = e.eval env := by
  simp only [shrUIOfIndexUI, Option.bind_eq_bind, Option.bind_eq_some_iff, Prod.exists] at h
  obtain ⟨x, c, hop, h⟩ := h
  obtain ⟨lhs, rfl, hx, hfits⟩ := eq_of_indexOperands hop
  cases eq_of_castUIOperand hx
  cases h
  exact setWidth_eval _ (by decide) hw fun _ => toNat_lt_of_fits hmax (List.mem_cons_self ..) hfits

theorem eval_divUIOfIndexUI (h : divUIOfIndexUI e = some e') (hw : w ≤ 64) (hmax : e.Bounded env) :
    e'.eval env = e.eval env := by
  simp only [divUIOfIndexUI, Option.bind_eq_bind, Option.bind_eq_some_iff, Prod.exists,
    Option.ite_none_left_eq_some] at h
  obtain ⟨x, c, hop, -, h⟩ := h
  obtain ⟨lhs, rfl, hx, hfits⟩ := eq_of_indexOperands hop
  cases eq_of_castUIOperand hx
  cases h
  exact setWidth_eval _ (by decide) hw fun _ => toNat_lt_of_fits hmax (List.mem_cons_self ..) hfits

theorem eval_shLIOfIndexUI (h : shLIOfIndexUI e = some e') (hw : w ≤ 64) : e'.eval env = e.eval env := by
  simp only [shLIOfIndexUI, Option.bind_eq_bind, Option.bind_eq_some_iff, Prod.exists] at h
  obtain ⟨x, c, hop, h⟩ := h
  obtain ⟨lhs, rfl, hx, -⟩ := eq_of_indexOperands hop
  cases eq_of_castUIOperand hx
  cases h
  exact setWidth_eval _ (by decide) hw (by simp)

theorem eval_addIOfIndexUI (h : addIOfIndexUI e = some e') (hw : w ≤ 64) : e'.eval env = e.eval env := by
  simp only [addIOfIndexUI, Option.bind_eq_bind, Option.bind_eq_some_iff, Prod.exists] at h
  obtain ⟨x, c, hop, h⟩ := h
  obtain ⟨lhs, rfl, hx, -⟩ := eq_of_indexOperands hop
  have heval : (bin .addi lhs (const c)).eval env = (x.eval env).setWidth w + c :=
    congrArg (· + c) (eval_of_castOperand hw hx)
  rw [heval]
  split at h
  · simp only [Option.bind_eq_some_iff, Prod.exists, Option.ite_none_left_eq_some] at h
    obtain ⟨y, z, hop, d, hd, -, h⟩ := h
    cases eq_bin_of_binOperands hop
    cases constValue_eq_some hd
    cases h
    simp only [eval, ArithOp.eval]
    rw [BitVec.setWidth_add _ _ hw, BitVec.setWidth_add _ _ hw, setWidth_const hw, BitVec.add_assoc, BitVec.add_comm c]
  · cases h
    exact setWidth_eval .addi (by decide) hw (by simp)

theorem eval_subIOfIndexUI (h : subIOfIndexUI e = some e') (hw : w ≤ 64) : e'.eval env = e.eval env := by
  simp only [subIOfIndexUI, Option.bind_eq_bind, Option.bind_eq_some_iff, Option.filter_eq_some_iff,
    Prod.exists, Option.ite_none_right_eq_some] at h
  obtain ⟨lhs, rhs, hop, x, ⟨hx, -⟩, c, hc, -, h⟩ := h
  cases eq_bin_of_binOperands hop
  cases eq_of_castUIOperand hx
  cases constValue_eq_some hc
  cases h
  simp only [eval, ArithOp.eval]
  rw [BitVec.signExtend_eq_setWidth_of_le _ hw, BitVec.eq_sub_iff_add_eq, ← BitVec.setWidth_add _ _ hw,
    BitVec.sub_add_cancel, setWidth_signExtend_const hw]

theorem eval_mulIOfIndexUI (h : mulIOfIndexUI e = some e') (hw : w ≤ 64) : e'.eval env = e.eval env := by
  simp only [mulIOfIndexUI, Option.bind_eq_bind, Option.bind_eq_some_iff, Prod.exists] at h
  obtain ⟨x, c, hop, h⟩ := h
  obtain ⟨lhs, rfl, hx, -⟩ := eq_of_indexOperands hop
  have heval : (bin .muli lhs (const c)).eval env = (x.eval env).setWidth w * c :=
    congrArg (· * c) (eval_of_castOperand hw hx)
  rw [heval]
  split at h
  · cases h
    simp only [eval, ArithOp.eval]
    rw [BitVec.signExtend_eq_setWidth_of_le _ hw, BitVec.setWidth_mul _ _ hw,
      setWidth_signExtend_const hw]
  · cases h
    exact setWidth_eval .muli (by decide) hw (by simp)

theorem eval_addIOfDoubleIndex (h : addIOfDoubleIndex e = some e') : e'.eval env = e.eval env := by
  simp only [addIOfDoubleIndex, Option.bind_eq_bind, Option.bind_eq_some_iff, Prod.exists,
    Option.ite_none_left_eq_some, not_not] at h
  obtain ⟨lhs, rhs, hop, x, hx, y, hy, rfl, h⟩ := h
  cases eq_bin_of_binOperands hop
  have heval : (bin .addi lhs rhs).eval env = x.eval env + y.eval env := by
    simp only [eval, ArithOp.eval, eval_of_castOperand le_rfl hx, eval_of_castOperand le_rfl hy, BitVec.setWidth_eq]
  rw [heval]
  split at h
  · cases h
    exact BitVec.signExtend_eq _
  · cases h
    exact BitVec.setWidth_eq _

end

section
variable {env : Env} {e e' : Expr t}

theorem eval_divMul (h : divMul e = some e') (hdef : e.Defined env) :
    e'.eval env = e.eval env ↔ Pattern.DivMul.Exact env e := by
  simp only [divMul, Option.bind_eq_bind, Option.bind_eq_some_iff, Prod.exists,
    Option.ite_none_left_eq_some, not_or, not_not] at h
  obtain ⟨lhs, rhs, hop, x, y, hmul, ⟨-, -, hy⟩, h⟩ := h
  cases eq_bin_of_binOperands hop
  cases eq_bin_of_binOperands hmul
  cases hy
  cases h
  have hpos : 0 < (rhs.eval env).toNat := Nat.pos_of_ne_zero fun h => hdef.2.2 (BitVec.eq_of_toNat_eq h)
  have hval : ((bin .divui (bin .muli e' rhs) rhs).eval env).toNat =
      (e'.eval env).toNat * (rhs.eval env).toNat % 2 ^ t.width / (rhs.eval env).toNat := by
    simp only [eval, ArithOp.eval, BitVec.toNat_udiv, BitVec.toNat_mul]
  rw [← BitVec.toNat_inj, hval]
  constructor
  · rintro h _ _ _ ⟨⟩
    have hle := Nat.div_mul_le_self ((e'.eval env).toNat * (rhs.eval env).toNat % 2 ^ t.width)
      (rhs.eval env).toNat
    rw [← h] at hle
    exact lt_of_le_of_lt hle (Nat.mod_lt _ (by positivity))
  · intro h
    rw [Nat.mod_eq_of_lt (h e' rhs rhs rfl), Nat.mul_div_cancel _ hpos]

variable {divisor factor : BitVec t.width}

theorem eq_of_remOperands {v val2 val : Expr t} (h : remOperands v val2 = some (val, divisor, factor)) :
    val = v ∧ factor = -divisor ∧
      val2 = bin .muli (bin .divui v (const divisor)) (const factor) := by
  simp only [remOperands, Option.bind_eq_bind, Option.bind_eq_some_iff, Prod.exists,
    Option.ite_none_left_eq_some, not_or, not_not] at h
  obtain ⟨div, rhs, hop, factor, hf, lhs, rhs, hdiv, divisor, hd, ⟨hneg, hval⟩, h⟩ := h
  cases eq_bin_of_binOperands hop
  cases eq_bin_of_binOperands hdiv
  cases constValue_eq_some hf
  cases constValue_eq_some hd
  cases hval
  cases h
  exact ⟨rfl, hneg, rfl⟩

/-- The sum is the remainder by the divisor. -/
theorem eval_of_remMatch {val : Expr t} (h : remMatch e = some (val, divisor, factor)) (hdef : e.Defined env) :
    factor = -divisor ∧ divisor ≠ 0 ∧ e.eval env = val.eval env % divisor := by
  have hsum (a : BitVec t.width) : a + a / divisor * -divisor = a % divisor := by
    rw [BitVec.mul_neg, ← BitVec.sub_eq_add_neg, eq_comm, BitVec.eq_sub_iff_add_eq]
    apply BitVec.eq_of_toNat_eq
    have hle := Nat.div_mul_le_self a.toNat divisor.toNat
    rw [BitVec.toNat_add, BitVec.toNat_mul, BitVec.toNat_udiv, BitVec.toNat_umod,
      Nat.mod_eq_of_lt (hle.trans_lt a.isLt), Nat.mod_add_div', Nat.mod_eq_of_lt a.isLt]
  simp only [remMatch, Option.bind_eq_bind, Option.bind_eq_some_iff, Prod.exists, Option.or_eq_some_iff] at h
  obtain ⟨lhs, rhs, hop, h | ⟨-, h⟩⟩ := h <;>
  cases eq_bin_of_binOperands hop <;>
  obtain ⟨rfl, rfl, rfl⟩ := eq_of_remOperands h
  · exact ⟨rfl, hdef.2.1.1.2.2, hsum _⟩
  · exact ⟨rfl, hdef.1.1.2.2, (BitVec.add_comm _ _).trans (hsum _)⟩

/-- Remainders by two divisors, for a number that is below their sum. -/
theorem mod_eq_mod_iff {a d f : Nat} (hf : 0 < f) (hfd : f < d) (ha : a < d + f) :
    a % f = a % d ↔ a < f ∨ d ≤ a ∧ d % f = 0 := by
  rcases Nat.lt_or_ge a d with had | had
  · rw [Nat.mod_eq_of_lt had, Nat.mod_eq_iff_lt hf.ne']
    omega
  · obtain ⟨b, rfl⟩ := Nat.exists_eq_add_of_le had
    rw [Nat.add_mod_left, Nat.mod_eq_of_lt (show b < d by omega)]
    constructor
    · intro h
      refine .inr ⟨had, ?_⟩
      have := Nat.sub_mod_eq_zero_of_mod_eq (h.trans (Nat.mod_eq_of_lt (show b < f by omega)).symm)
      rwa [Nat.add_sub_cancel] at this
    · rintro (h | ⟨-, h⟩)
      · omega
      · rw [Nat.add_mod, h, zero_add, Nat.mod_mod, Nat.mod_eq_of_lt (by omega)]

theorem eval_toRem (h : toRem e = some e') (hdef : e.Defined env) :
    e'.eval env = e.eval env ↔ Pattern.ToRem.Exact env e := by
  simp only [toRem, Option.bind_eq_bind, Option.bind_eq_some_iff, Prod.exists] at h
  obtain ⟨val, divisor, factor, hrem, h⟩ := h
  cases h
  obtain ⟨hneg, hzero, heval⟩ := eval_of_remMatch hrem hdef
  have hexact : Pattern.ToRem.Exact env e ↔ factor.msb ∨ val.eval env < factor ∨
      divisor ≤ val.eval env ∧ divisor % factor = 0 := by
    constructor
    · intro h
      exact h _ _ _ hrem
    · intro h _ _ _ hrem'
      cases hrem.symm.trans hrem'
      exact h
  rw [heval, hexact]
  simp only [eval, ArithOp.eval]
  by_cases hmsb : factor.msb
  · rw [if_pos hmsb]
    exact iff_of_true rfl (.inl hmsb)
  · rw [if_neg hmsb, or_iff_right hmsb, ← BitVec.toNat_inj, BitVec.lt_def, BitVec.le_def, ← BitVec.toNat_inj]
    have hlt := (BitVec.msb_eq_false_iff_two_mul_lt).mp (Bool.eq_false_iff.mpr hmsb)
    have hpos : 0 < divisor.toNat := Nat.pos_of_ne_zero fun h => hzero (BitVec.eq_of_toNat_eq h)
    have hd := divisor.isLt
    have ha := (val.eval env).isLt
    rw [hneg, BitVec.toNat_neg, Nat.mod_eq_of_lt (by omega)] at hlt
    have hf : factor.toNat = 2 ^ t.width - divisor.toNat := by
      rw [hneg, BitVec.toNat_neg, Nat.mod_eq_of_lt (by omega)]
    exact mod_eq_mod_iff (by omega) (by omega) (by omega)

end

/-- A rewrite keeps the value of its expression except for `DivMul` where the product wraps, and for
`ToRem` where the factor is not negative, which takes the factor for the divisor. -/
theorem matchAndRewrite_exact {p : Pattern} {t : IntTy} {env : Env} {e e' : Expr t} (hw : t.width ≤ 64)
    (h : p.matchAndRewrite e = some e') (hdef : e.Defined env) (hmax : e.Bounded env) :
    e'.eval env = e.eval env ↔ p.Exact env e := by
  cases t with
  | index => cases p with
    | DivMul => exact eval_divMul h hdef
    | ToRem => exact eval_toRem h hdef
    | _ => cases h
  | int w => cases p with
    | DivMul => exact eval_divMul h hdef
    | ToRem => exact eval_toRem h hdef
    | ExtUIOfIndexUI => exact iff_of_true (eval_extUIOfIndexUI h hmax) trivial
    | TruncIOfIndexUI => exact iff_of_true (eval_truncIOfIndexUI h) trivial
    | ShrUIOfIndexUI => exact iff_of_true (eval_shrUIOfIndexUI h hw hmax) trivial
    | DivUIOfIndexUI => exact iff_of_true (eval_divUIOfIndexUI h hw hmax) trivial
    | AddIOfIndexUI => exact iff_of_true (eval_addIOfIndexUI h hw) trivial
    | SubIOfIndexUI => exact iff_of_true (eval_subIOfIndexUI h hw) trivial
    | MulIOfIndexUI => exact iff_of_true (eval_mulIOfIndexUI h hw) trivial
    | ShLIOfIndexUI => exact iff_of_true (eval_shLIOfIndexUI h hw) trivial
    | AddIOfDoubleIndex => exact iff_of_true (eval_addIOfDoubleIndex h) trivial

theorem matchAndRewrite_exact_fourSteps :
    (indexCastUI (bin .divui (iv fourSteps 0) (const 3)) : Expr (.int 8)).eval lastStep =
      (bin .divui (indexCastUI (iv fourSteps 0)) (const 3)).eval lastStep := by
  refine (matchAndRewrite_exact (p := .DivUIOfIndexUI) (by decide) rfl ?_ ?_).mpr trivial
  · exact ⟨trivial, trivial, show (3 : BitVec 8) ≠ 0 by decide⟩
  · simp [Bounded, operands, maxSize, maxSizeWith, fourSteps, eval, lastStep]
    decide

/-- Ten plus ten over 254 times two has remainder ten by 254, and not the remainder zero by two. -/
theorem not_matchAndRewrite_toRem : ¬∀ (p : Pattern) (t : IntTy) (env : Env) (e e' : Expr t),
    t.width ≤ 64 → p.matchAndRewrite e = some e' → e.Defined env → e.Bounded env → e'.eval env = e.eval env := by
  intro h
  have heq := h .ToRem (.int 8) ⟨fun _ _ => 10, fun _ _ => 0, fun _ _ => 0, fun _ _ => 0⟩
    (bin .addi (arg 0) (bin .muli (bin .divui (arg 0) (const 254)) (const 2))) _ (by decide) rfl
    ⟨trivial, ⟨⟨trivial, trivial, show (254 : BitVec 8) ≠ 0 by decide⟩, trivial, trivial⟩, trivial⟩
    (by simp [Bounded, operands, maxSize, maxSizeWith, ArithOp.maxSize, constValue])
  exact absurd heq (by decide)

end EnzymeJax.CanonicalizeLoops
