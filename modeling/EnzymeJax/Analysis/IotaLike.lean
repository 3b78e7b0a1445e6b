import EnzymeJax.Library.Doubles
import EnzymeJax.Library.Permuted

/-!
# Tensors that count

`detectIotaLikeTensor` follows transposes, conversions, and sums, differences and products with splats down to
an iota or a constant, through doubles and signed integers. The result is right unless integers that wrap
around or are not signed are made wider, a fraction is cut off, or a product of integers is rounded.
-/

namespace EnzymeJax.IotaLike

open Tensor List Option

/-! ### Values -/

/-- The elements of float types are rationals. -/
inductive ElementType where
  | int (type : IntType)
  | float
  deriving DecidableEq

namespace ElementType

/-- The element for a result of arithmetic: integers wrap around. -/
def cast : ElementType → ℚ → ℚ
  | int type, q => type.wrap ⌊q⌋
  | float, q => q

def Has : ElementType → ℚ → Prop
  | int type, q => ∃ n : Int, q = n ∧ type.wrap n = n
  | float, _ => True

/-- Integers of one bit are booleans. -/
def Ok : ElementType → Prop
  | int type => 2 ≤ type.width ∧ type.width ≤ 32
  | float => True

end ElementType

inductive BinaryOp where
  | add
  | subtract
  | multiply
  deriving DecidableEq

def BinaryOp.apply : BinaryOp → ℚ → ℚ → ℚ
  | add, a, b => a + b
  | subtract, a, b => a - b
  | multiply, a, b => a * b

inductive DenseElementsAttr where
  | splat (shape : List Nat) (value : ℚ)
  | dense (values : Tensor ℚ)

def DenseElementsAttr.values : DenseElementsAttr → Tensor ℚ
  | splat shape value => Tensor.splat shape value
  | dense values => values

inductive Value where
  | iota (type : ElementType) (shape : List Nat) (iotaDimension : Nat)
  | constant (type : ElementType) (value : DenseElementsAttr)
  | transpose (permutation : List Nat) (operand : Value)
  | convert (type : ElementType) (operand : Value)
  | binary (op : BinaryOp) (lhs rhs : Value)
  | other (type : ElementType) (values : Tensor ℚ)

def truncate (q : ℚ) : Int := q.num.tdiv q.den

/-- The conversion of one element. Of a float that is out of range, `outOfRange` says what it becomes. -/
def convertElement (outOfRange : IntType → ℚ → Int) : ElementType → ElementType → ℚ → ℚ
  | .float, .int type, q => if type.wrap (truncate q) = truncate q then truncate q else outOfRange type q
  | _, target, q => target.cast q

namespace Value

def type : Value → ElementType
  | iota type _ _ => type
  | constant type _ => type
  | transpose _ operand => operand.type
  | convert type _ => type
  | binary _ lhs _ => lhs.type
  | other type _ => type

/-- What the verifier asks of the types, which have at most 32 bits. -/
def WellTyped : Value → Prop
  | iota type shape iotaDimension => type.Ok ∧ iotaDimension < shape.length
  | constant type (.splat _ value) => type.Ok ∧ type.Has value
  | constant type (.dense values) => type.Ok ∧ ∀ idx ∈ indices values.shape, type.Has (values.get idx)
  | transpose _ operand => operand.WellTyped
  | convert type operand => type.Ok ∧ operand.WellTyped
  | binary _ lhs rhs => lhs.type = rhs.type ∧ lhs.WellTyped ∧ rhs.WellTyped
  | other type _ => type.Ok

def eval (outOfRange : IntType → ℚ → Int) : Value → Option (Tensor ℚ)
  | iota type shape iotaDimension => some ⟨shape, fun idx => type.cast (coord idx iotaDimension)⟩
  | constant _ value => some value.values
  | transpose permutation operand => (operand.eval outOfRange).bind (Tensor.transpose permutation)
  | convert type operand =>
    (operand.eval outOfRange).map (Tensor.map (convertElement outOfRange operand.type type))
  | binary op lhs rhs =>
    (lhs.eval outOfRange).bind fun x => (rhs.eval outOfRange).bind fun y =>
      zipWith (fun a b => lhs.type.cast (op.apply a b)) x y
  | other _ values => some values

end Value

/-! ### Detection -/

structure TypedAttr where
  type : ElementType
  value : ℚ

structure IotaLikeTensor where
  start : TypedAttr
  dimension : Nat
  scale : TypedAttr
  tensorType : List Nat × ElementType

def getDoubleFromAttr (attr : TypedAttr) : ℚ :=
  match attr.type with
  | .int type => type.signed ⌊attr.value⌋
  | .float => attr.value

def createAttrFromDouble (elemType : ElementType) (value : ℚ) : Option TypedAttr :=
  match elemType with
  | .int type => (IntType.int64 (truncate value)).map fun n => ⟨elemType, type.wrap n⟩
  | .float => some ⟨elemType, value⟩

/-- A double that is computed from attributes of a type. -/
def rounded (elemType : ElementType) (value : ℚ) : ℚ :=
  match elemType with
  | .int _ => roundDouble ⌊value⌋
  | .float => value

/-- One element in the loop over a constant, with `detectedStart` and `detectedScale`. -/
def detectStep (elemType : ElementType) (values : Tensor ℚ) (dim : Nat) (found : Option ℚ × Option ℚ)
    (idx : Nat) : Option (Option ℚ × Option ℚ) := do
  let indices := unravel values.shape idx
  let actualValue := values.get indices
  let found ← match found with
    | (none, scale) => some (some actualValue, scale)
    | (some start, none) =>
      if coord indices dim = 1 then
        let scale := elemType.cast (actualValue - start)
        if scale = 0 then none else some (some start, some scale)
      else some (some start, none)
    | found => some found
  let scale := found.2.getD (elemType.cast 1)
  let expectedValue := elemType.cast (found.1.getD 0 + elemType.cast (scale * coord indices dim))
  if actualValue = expectedValue then some found else none

def detectAlong (elemType : ElementType) (values : Tensor ℚ) (dim : Nat) : Option IotaLikeTensor := do
  let found ← (List.range values.shape.prod).foldlM (detectStep elemType values dim) (none, none)
  let start ← found.1
  return ⟨⟨elemType, start⟩, dim, ⟨elemType, found.2.getD (elemType.cast 1)⟩, (values.shape, elemType)⟩

def detectIotaLikeTensorImpl (elemType : ElementType) (values : Tensor ℚ) : Option IotaLikeTensor :=
  (List.range values.shape.length).findSome? (detectAlong elemType values)

def getSplatValue : Value → Option TypedAttr
  | .constant type (.splat _ value) => some ⟨type, value⟩
  | _ => none

/-- The operand that is followed, which is the left one or not, and the splat that is the other one. -/
def followed (op : BinaryOp) (lhs rhs : Value) : Option (Bool × TypedAttr) :=
  match getSplatValue rhs with
  | some rhsAttr => some (true, rhsAttr)
  | none => if op = .subtract then none else (getSplatValue lhs).map (false, ·)

inductive ChainItem where
  | convert (type : ElementType)
  | transpose (permutation : List Nat)
  | binary (op : BinaryOp) (attr : TypedAttr)

/-- The base case, and the chain from the outermost op to it. -/
def chain : Value → Option (Value × List ChainItem)
  | .iota type shape iotaDimension => some (.iota type shape iotaDimension, [])
  | .constant type value => some (.constant type value, [])
  | .transpose permutation operand =>
    (chain operand).map fun (base, items) => (base, .transpose permutation :: items)
  | .convert type operand => (chain operand).map fun (base, items) => (base, .convert type :: items)
  | .binary op lhs rhs =>
    match followed op lhs rhs with
    | some (true, attr) => (chain lhs).map fun (base, items) => (base, .binary op attr :: items)
    | some (false, attr) => (chain rhs).map fun (base, items) => (base, .binary op attr :: items)
    | none => none
  | .other _ _ => none

def baseCase : Value → Option IotaLikeTensor
  | .iota type shape iotaDimension => do
    let zeroAttr ← createAttrFromDouble type 0
    let oneAttr ← createAttrFromDouble type 1
    return ⟨zeroAttr, iotaDimension, oneAttr, (shape, type)⟩
  | .constant type value => detectIotaLikeTensorImpl type value.values
  | _ => none

def replay (result : IotaLikeTensor) : ChainItem → Option IotaLikeTensor
  | .convert newElemType => do
    let start ← createAttrFromDouble newElemType (getDoubleFromAttr result.start)
    let scale ← createAttrFromDouble newElemType (getDoubleFromAttr result.scale)
    return { result with start := start, scale := scale }
  | .transpose permutation =>
    if result.dimension ∈ permutation then
      some { result with dimension := permutation.idxOf result.dimension }
    else some result
  | .binary op attr => do
    let elemType := result.start.type
    let start ← createAttrFromDouble elemType
      (rounded elemType (op.apply (getDoubleFromAttr result.start) (getDoubleFromAttr attr)))
    if op = .multiply then
      let scale ← createAttrFromDouble elemType
        (rounded elemType (op.apply (getDoubleFromAttr result.scale) (getDoubleFromAttr attr)))
      return { result with start := start, scale := scale }
    return { result with start := start }

/-- The type is that of the tensor, whose shape is given. -/
def detectIotaLikeTensor (tensor : Value) (shape : List Nat) : Option IotaLikeTensor := do
  let (base, items) ← chain tensor
  let result ← baseCase base
  let result ← items.reverse.foldlM replay result
  return { result with tensorType := (shape, tensor.type) }

/-! ### Steps that keep the result -/

/-- The coordinate `i` of dimension `d`, and 0 in the others. -/
def along (d i : Nat) : Nat → Nat := fun e => if e = d then i else 0

/-- The first element, as it is read. -/
def startOf (type : ElementType) (x : Tensor ℚ) : ℚ := getDoubleFromAttr ⟨type, x.read fun _ => 0⟩

/-- What is added to the first element along a dimension, as it is read. -/
def stepOf (type : ElementType) (x : Tensor ℚ) (d : Nat) : ℚ :=
  getDoubleFromAttr ⟨type, type.cast (x.read (along d 1) - x.read fun _ => 0)⟩

/-- Integers that are made wider, or floats, have not wrapped around and are signed. Of floats that are made
integers, the fractions that are cut off do not matter. -/
def ConvertsInStep : ElementType → ElementType → Tensor ℚ → Nat → Nat → Prop
  | .float, .float, _, _, _ => True
  | .float, .int type, x, d, i =>
    type.wrap (truncate (x.read (along d i))) = truncate (x.read (along d i)) ∧
      truncate (x.read (along d i)) = truncate (startOf .float x) + i * truncate (stepOf .float x d)
  | .int source, target, x, d, i =>
    (∃ type, target = .int type ∧ type.width ≤ source.width) ∨
      x.read (along d i) = startOf (.int source) x + i * stepOf (.int source) x d

/-- If the value that a double is rounded to is another one, it has the same lowest bits. -/
def RoundsInStep (type : ElementType) (value : ℚ) : Prop := type.cast (rounded type value) = type.cast value

namespace Value

variable (outOfRange : IntType → ℚ → Int)

/-- The product of what is read at the elements. -/
def MultipliesInStep (operand : Value) (attr : TypedAttr) : Prop :=
  ∀ x, operand.eval outOfRange = some x → ∀ c, Within x.shape c →
    RoundsInStep operand.type (startOf operand.type x * getDoubleFromAttr attr) ∧
      ∀ d < x.shape.length, 1 < coord x.shape d →
        RoundsInStep operand.type (stepOf operand.type x d * getDoubleFromAttr attr)

/-- No step on the way to the base case disturbs the distances. -/
def InStep : Value → Prop
  | transpose _ operand => operand.InStep
  | convert type operand => operand.InStep ∧ ∀ x, operand.eval outOfRange = some x → ∀ c, Within x.shape c →
    ∀ d < x.shape.length, ConvertsInStep operand.type type x d (c d)
  | binary op lhs rhs =>
    match followed op lhs rhs with
    | some (true, attr) => lhs.InStep ∧ (op = .multiply → lhs.MultipliesInStep outOfRange attr)
    | some (false, attr) => rhs.InStep ∧ (op = .multiply → rhs.MultipliesInStep outOfRange attr)
    | none => True
  | _ => True

end Value

/-! ### What is found -/

/-- The elements are counted from the start by the scale. -/
structure Counts (type : ElementType) (x : Tensor ℚ) (r : IotaLikeTensor) : Prop where
  start_type : r.start.type = type
  scale_type : r.scale.type = type
  has_start : type.Has r.start.value
  has_scale : type.Has r.scale.value
  dimension_lt : r.dimension < x.shape.length
  read_eq : ∀ c, Within x.shape c → x.read c = type.cast (r.start.value + c r.dimension * r.scale.value)

@[simp] theorem cast_int (type : IntType) (n : Int) : (ElementType.int type).cast n = type.wrap n := by
  simp [ElementType.cast]

@[simp] theorem cast_float (q : ℚ) : ElementType.float.cast q = q := rfl

theorem has_cast (type : ElementType) (q : ℚ) : type.Has (type.cast q) := by
  cases type with
  | int type => exact ⟨type.wrap ⌊q⌋, rfl, type.wrap_wrap _⟩
  | float => trivial

variable {type : ElementType}

variable {q : ℚ} {shape : List Nat}

theorem cast_of_has (h : type.Has q) : type.cast q = q := by
  cases type with
  | int type =>
    obtain ⟨n, rfl, hn⟩ := h
    rw [cast_int, hn]
  | float => rfl

@[simp] theorem truncate_intCast (n : Int) : truncate n = n := by
  simp [truncate]

variable {attr : TypedAttr}

theorem createAttrFromDouble_int {type : IntType} (h : createAttrFromDouble (.int type) q = some attr) :
    attr = ⟨.int type, type.wrap (truncate q)⟩ := by
  obtain ⟨n, hn, rfl⟩ := map_eq_some_iff.mp h
  rw [IntType.eq_of_int64 hn]

theorem createAttrFromDouble_float (h : createAttrFromDouble .float q = some attr) : attr = ⟨.float, q⟩ :=
  (some.inj h).symm

theorem createAttrFromDouble_spec (h : createAttrFromDouble type q = some attr) :
    attr.type = type ∧ type.Has attr.value := by
  cases type with
  | int type =>
    rw [createAttrFromDouble_int h]
    exact ⟨rfl, _, rfl, type.wrap_wrap _⟩
  | float =>
    rw [createAttrFromDouble_float h]
    exact ⟨rfl, trivial⟩

theorem cast_congr {type : IntType} {n m : Int} (h : (n : ZMod (2 ^ type.width)) = m) :
    (ElementType.int type).cast n = (ElementType.int type).cast m := by
  rw [cast_int, cast_int, IntType.wrap_eq_wrap_iff_zmod.mpr h]

theorem intCast_add_mul (n m : Int) (i : Nat) : (n : ℚ) + i * m = ((n + i * m : Int) : ℚ) := by
  push_cast
  rfl

theorem cast_add_cast {a b : ℚ} (ha : type.Has a) (hb : type.Has b) (i : Nat) :
    type.cast (a + type.cast (b * i)) = type.cast (a + i * b) := by
  cases type with
  | int type =>
    obtain ⟨n, rfl, -⟩ := ha
    obtain ⟨m, rfl, -⟩ := hb
    have hmul : (m : ℚ) * i = ((m * i : Int) : ℚ) := by push_cast; rfl
    rw [hmul, cast_int, intCast_add_mul, ← Int.cast_add]
    apply cast_congr
    push_cast
    rw [IntType.zmod_wrap]
    push_cast
    ring
  | float => simp [mul_comm]

theorem counts_iota {dim : Nat} {r : IotaLikeTensor} (hdim : dim < shape.length)
    (h : baseCase (.iota type shape dim) = some r) : Counts type ⟨shape, fun idx => type.cast (coord idx dim)⟩ r := by
  simp only [baseCase, bind_eq_bind, bind_eq_some_iff] at h
  obtain ⟨zero, hzero, one, hone, h⟩ := h
  cases h
  obtain ⟨hzeroType, hzeroHas⟩ := createAttrFromDouble_spec hzero
  obtain ⟨honeType, honeHas⟩ := createAttrFromDouble_spec hone
  refine ⟨hzeroType, honeType, hzeroHas, honeHas, hdim, fun c _ => ?_⟩
  change type.cast (coord ((range shape.length).map c) dim) = type.cast (zero.value + c dim * one.value)
  rw [coord_map_range c hdim]
  cases type with
  | int type =>
    rw [createAttrFromDouble_int hzero, createAttrFromDouble_int hone]
    have hone : truncate 1 = 1 := truncate_intCast 1
    have hzero : truncate 0 = 0 := truncate_intCast 0
    have hleft : (c dim : ℚ) = ((c dim : Int) : ℚ) := by push_cast; rfl
    dsimp only
    rw [hzero, hone, intCast_add_mul, hleft]
    apply cast_congr
    push_cast
    simp
  | float =>
    rw [createAttrFromDouble_float hzero, createAttrFromDouble_float hone]
    simp

/-! ### Constants -/

theorem ravel_set_lt {idx : List Nat} {d i : Nat} (hidx : idx ∈ indices shape) (hi : i < coord idx d) :
    ravel shape (idx.set d i) < ravel shape idx := by
  induction shape generalizing idx d with
  | nil =>
    obtain rfl := mem_indices_nil.mp hidx
    cases hi
  | cons n shape ih =>
    obtain ⟨k, hk, rest, hrest, rfl⟩ := mem_indices_cons.mp hidx
    cases d with
    | zero =>
      have hpos : 0 < shape.prod := prod_pos (pos_of_mem_indices hrest)
      have hlt : i * shape.prod < k * shape.prod := Nat.mul_lt_mul_of_pos_right hi hpos
      simpa [ravel] using hlt
    | succ d =>
      have hlt := ih hrest (show i < coord rest d from hi)
      simpa [ravel] using hlt

section

variable {type : ElementType} {x : Tensor ℚ} {dim n : Nat}

/-- What is known after the first `n` elements. -/
structure Found (type : ElementType) (x : Tensor ℚ) (dim n : Nat) (found : Option ℚ × Option ℚ) : Prop where
  start_eq : n = 0 ∧ found = (none, none) ∨ 0 < n ∧ found.1 = some (x.get (unravel x.shape 0))
  has_scale : ∀ scale, found.2 = some scale → type.Has scale
  coord_eq : found.2 = none → ∀ k < n, coord (unravel x.shape k) dim = 0
  get_eq : ∀ k < n, x.get (unravel x.shape k) = type.cast (x.get (unravel x.shape 0) +
    type.cast (found.2.getD (type.cast 1) * coord (unravel x.shape k) dim))

theorem coord_unravel_zero (shape : List Nat) (d : Nat) : coord (unravel shape 0) d = 0 := by
  simp [unravel_zero, coord, getD_eq_getElem?_getD, getElem?_replicate]
  grind

theorem coord_le_one (hn : n < shape.prod) (h : ∀ k < n, coord (unravel shape k) dim = 0) :
    coord (unravel shape n) dim ≤ 1 := by
  by_contra hlarge
  have hmem := unravel_mem_indices hn
  have hlt := ravel_set_lt hmem (Nat.lt_of_not_le hlarge)
  have hdim : dim < (unravel shape n).length := by
    by_contra hdim
    rw [coord, getD_eq_default _ _ (Nat.le_of_not_lt hdim)] at hlarge
    omega
  have hset : (unravel shape n).set dim 1 ∈ indices shape := by
    rw [mem_indices_iff] at hmem ⊢
    refine ⟨by rw [length_set, hmem.1], fun e he => ?_⟩
    have hbound := hmem.2 e he
    by_cases heq : e = dim
    · subst heq
      rw [coord_set_self hdim]
      omega
    · simpa [coord, getD_eq_getElem?_getD, getElem?_set_ne (Ne.symm heq)] using hbound
  have hzero := h _ (ravel_unravel hn ▸ hlt)
  rw [unravel_ravel hset, coord_set_self hdim] at hzero
  omega

theorem Found.step {found found' : Option ℚ × Option ℚ} (h : Found type x dim n found) (hn : n < x.shape.prod)
    (hstep : detectStep type x dim found n = some found') : Found type x dim (n + 1) found' := by
  -- The elements before are met again, and the test is the one of the new element.
  have hnext : ∀ scale : Option ℚ, (∀ k < n, x.get (unravel x.shape k) = type.cast (x.get (unravel x.shape 0) +
      type.cast (scale.getD (type.cast 1) * coord (unravel x.shape k) dim))) →
      x.get (unravel x.shape n) = type.cast (x.get (unravel x.shape 0) +
        type.cast (scale.getD (type.cast 1) * coord (unravel x.shape n) dim)) →
      ∀ k < n + 1, x.get (unravel x.shape k) = type.cast (x.get (unravel x.shape 0) +
        type.cast (scale.getD (type.cast 1) * coord (unravel x.shape k) dim)) := by
    intro scale hbefore hlast k hk
    obtain hlt | rfl := Nat.lt_succ_iff_lt_or_eq.mp hk
    · exact hbefore k hlt
    · exact hlast
  obtain ⟨rfl, rfl⟩ | ⟨hpos, hstart⟩ := h.start_eq
  · simp only [detectStep, bind_eq_bind, bind_some, ite_none_right_eq_some, some.injEq] at hstep
    obtain ⟨heq, rfl⟩ := hstep
    refine ⟨.inr ⟨one_pos, rfl⟩, fun _ hscale => (by cases hscale), fun _ k hk => ?_, hnext none (fun k hk => ?_) heq⟩
    · obtain rfl : k = 0 := by omega
      exact coord_unravel_zero _ _
    · cases hk
  · obtain ⟨start, scale⟩ := found
    obtain rfl : start = some (x.get (unravel x.shape 0)) := hstart
    cases scale with
    | some scale =>
      simp only [detectStep, bind_eq_bind, bind_some, ite_none_right_eq_some, some.injEq] at hstep
      obtain ⟨heq, rfl⟩ := hstep
      exact ⟨.inr ⟨Nat.succ_pos n, rfl⟩, h.has_scale, fun hnone => (by cases hnone), hnext _ h.get_eq heq⟩
    | none =>
      have hzero := h.coord_eq rfl
      by_cases hone : coord (unravel x.shape n) dim = 1
      · simp only [detectStep, hone, if_true, bind_eq_bind] at hstep
        split at hstep
        · cases hstep
        · simp only [bind_some, ite_none_right_eq_some, some.injEq] at hstep
          obtain ⟨heq, rfl⟩ := hstep
          rw [← hone] at heq
          refine ⟨.inr ⟨Nat.succ_pos n, rfl⟩, fun scale hscale => ?_, fun hnone => (by cases hnone),
            hnext _ (fun k hk => ?_) heq⟩
          · cases hscale
            exact has_cast _ _
          · rw [h.get_eq k hk, hzero k hk, Nat.cast_zero, mul_zero, mul_zero]
      · simp only [detectStep, if_neg hone, bind_eq_bind, bind_some, ite_none_right_eq_some, some.injEq] at hstep
        obtain ⟨heq, rfl⟩ := hstep
        refine ⟨.inr ⟨Nat.succ_pos n, rfl⟩, h.has_scale, fun _ k hk => ?_, hnext _ h.get_eq heq⟩
        obtain hlt | rfl := Nat.lt_succ_iff_lt_or_eq.mp hk
        · exact hzero k hlt
        · have hle : coord (unravel x.shape k) dim ≤ 1 := coord_le_one hn hzero
          omega

theorem found_foldlM {m : Nat} (hm : m ≤ x.shape.prod) {found : Option ℚ × Option ℚ}
    (h : (range m).foldlM (detectStep type x dim) (none, none) = some found) : Found type x dim m found := by
  induction m generalizing found with
  | zero =>
    cases h
    exact ⟨.inl ⟨rfl, rfl⟩, fun _ hscale => (by cases hscale), fun _ _ hk => (by cases hk), fun _ hk => (by cases hk)⟩
  | succ m ih =>
    rw [range_succ, foldlM_append, bind_eq_bind, bind_eq_some_iff] at h
    obtain ⟨before, hbefore, hlast⟩ := h
    exact (ih (Nat.le_of_succ_le hm) hbefore).step hm (by simpa using hlast)

theorem counts_constant {r : IotaLikeTensor} (hx : ∀ idx ∈ indices x.shape, type.Has (x.get idx))
    (h : detectIotaLikeTensorImpl type x = some r) : Counts type x r := by
  obtain ⟨dim, hdim, h⟩ := exists_of_findSome?_eq_some h
  simp only [detectAlong, bind_eq_bind, bind_eq_some_iff] at h
  obtain ⟨found, hfold, start, hstart, h⟩ := h
  cases h
  have hfound := found_foldlM (le_refl _) hfold
  obtain ⟨-, hnone⟩ | ⟨hpos, hfirst⟩ := hfound.start_eq
  · rw [hnone] at hstart
    cases hstart
  · cases hfirst.symm.trans hstart
    have hhas : type.Has (found.2.getD (type.cast 1)) := by
      cases hscale : found.2 with
      | none => exact has_cast _ _
      | some scale => exact hfound.has_scale scale hscale
    refine ⟨rfl, rfl, hx _ (unravel_mem_indices hpos), hhas, mem_range.mp hdim, fun c hc => ?_⟩
    have hidx := hc.mem_indices
    have hget := hfound.get_eq _ (ravel_lt hidx)
    rw [unravel_ravel hidx, coord_map_range c (mem_range.mp hdim),
      cast_add_cast (hx _ (unravel_mem_indices hpos)) hhas] at hget
    exact hget

end

/-! ### The ops of the chain -/

section

variable {type : ElementType} {x y : Tensor ℚ} {r r' : IotaLikeTensor}

variable {n m : Int} {outOfRange : IntType → ℚ → Int} {v : Value} {items : List ChainItem}

theorem getDoubleFromAttr_int {type : IntType} (h : attr.type = .int type) (hn : attr.value = n) :
    getDoubleFromAttr attr = type.signed n := by
  simp [getDoubleFromAttr, h, hn]

theorem getDoubleFromAttr_float (h : attr.type = .float) :
    getDoubleFromAttr attr = attr.value := by
  simp [getDoubleFromAttr, h]

theorem getDoubleFromAttr_congr (h : attr.type = type) :
    getDoubleFromAttr ⟨type, attr.value⟩ = getDoubleFromAttr attr := by
  rw [← h]

theorem within_along {c : Nat → Nat} (hc : Within shape c) {d i : Nat} (hi : i < coord shape d) :
    Within shape (along d i) := by
  intro e he
  rw [along]
  split
  · rename_i heq
    rwa [heq]
  · exact pos_of_gt (hc e he)

namespace Counts

variable (h : Counts type x r) {c : Nat → Nat} (hc : Within x.shape c)

include h hc

theorem read_along : x.read (along r.dimension (c r.dimension)) = x.read c := by
  have hcoord : along r.dimension (c r.dimension) r.dimension = c r.dimension := if_pos rfl
  rw [h.read_eq _ (within_along hc (hc _ h.dimension_lt)), h.read_eq c hc, hcoord]

theorem read_zero : (x.read fun _ => 0) = r.start.value := by
  rw [h.read_eq _ fun d hd => pos_of_gt (hc d hd), Nat.cast_zero, zero_mul, add_zero, cast_of_has h.has_start]

theorem startOf_eq : startOf type x = getDoubleFromAttr r.start := by
  rw [startOf, h.read_zero hc, getDoubleFromAttr_congr h.start_type]

theorem stepOf_eq (hlt : 1 < coord x.shape r.dimension) :
    stepOf type x r.dimension = getDoubleFromAttr r.scale := by
  have hone : along r.dimension 1 r.dimension = 1 := if_pos rfl
  rw [stepOf, h.read_zero hc, h.read_eq _ (within_along hc hlt), hone, Nat.cast_one, one_mul]
  cases type with
  | int type =>
    obtain ⟨n, hn, -⟩ := h.has_start
    obtain ⟨m, hm, -⟩ := h.has_scale
    rw [hn, hm, ← Int.cast_add, cast_int, ← Int.cast_sub, cast_int, getDoubleFromAttr_int h.scale_type hm,
      getDoubleFromAttr_int rfl rfl]
    refine congrArg _ (IntType.signed_congr (IntType.wrap_eq_wrap_iff_zmod.mpr ?_))
    simp
  | float =>
    rw [getDoubleFromAttr_float h.scale_type, getDoubleFromAttr_float rfl]
    simp

theorem zero_or_stepOf_eq : c r.dimension = 0 ∨ stepOf type x r.dimension = getDoubleFromAttr r.scale := by
  by_cases hzero : c r.dimension = 0
  · exact .inl hzero
  · have hlt := hc _ h.dimension_lt
    exact .inr (h.stepOf_eq hc (by omega))

end Counts

theorem counts_transpose {perm : List Nat} (h : Counts type x r) (ht : transpose perm x = some y)
    (hr : replay r (.transpose perm) = some r') : Counts type y r' := by
  obtain ⟨hperm, hlen, -⟩ := shape_transpose ht
  have hmem : r.dimension ∈ perm := hperm.mem_iff.mpr (mem_range.mpr h.dimension_lt)
  rw [replay, if_pos hmem] at hr
  cases hr
  refine ⟨h.start_type, h.scale_type, h.has_start, h.has_scale, ?_, fun c hc => ?_⟩
  · rw [hlen]
    exact idxOf_lt hperm h.dimension_lt
  · rw [read_transpose ht, h.read_eq _ (within_transpose ht hc)]
    rfl

theorem counts_convert {target : ElementType} (h : Counts type x r) (hr : replay r (.convert target) = some r')
    (hstep : ∀ c, Within x.shape c → ∀ d < x.shape.length, ConvertsInStep type target x d (c d)) :
    Counts target (x.map (convertElement outOfRange type target)) r' := by
  simp only [replay, bind_eq_bind, bind_eq_some_iff] at hr
  obtain ⟨start, hstart, scale, hscale, hr⟩ := hr
  cases hr
  obtain ⟨hstartType, hstartHas⟩ := createAttrFromDouble_spec hstart
  obtain ⟨hscaleType, hscaleHas⟩ := createAttrFromDouble_spec hscale
  refine ⟨hstartType, hscaleType, hstartHas, hscaleHas, h.dimension_lt, fun c hc => ?_⟩
  change convertElement outOfRange type target (x.read c) = target.cast (start.value + c r.dimension * scale.value)
  have hin := hstep c hc _ h.dimension_lt
  have hstartOf := h.startOf_eq hc
  have hstepOf := h.zero_or_stepOf_eq hc
  have hread := h.read_eq c hc
  have halong := h.read_along hc
  generalize c r.dimension = i at *
  cases type with
  | float =>
    rw [getDoubleFromAttr_float h.start_type] at hstart hstartOf
    rw [getDoubleFromAttr_float h.scale_type] at hscale hstepOf
    cases target with
    | float =>
      rw [createAttrFromDouble_float hstart, createAttrFromDouble_float hscale]
      exact hread
    | int target =>
      rw [createAttrFromDouble_int hstart, createAttrFromDouble_int hscale]
      obtain ⟨hfits, heq⟩ := hin
      rw [halong] at hfits heq
      have hmul : (i : Int) * truncate (stepOf .float x r.dimension) = i * truncate r.scale.value := by
        obtain rfl | hstepOf := hstepOf
        · simp
        · rw [hstepOf]
      rw [hstartOf, hmul] at heq
      rw [convertElement, if_pos hfits]
      rw [← hfits, ← cast_int]
      dsimp only
      rw [intCast_add_mul]
      apply cast_congr
      rw [heq]
      push_cast
      simp
  | int source =>
    obtain ⟨n, hn, -⟩ := h.has_start
    obtain ⟨m, hm, -⟩ := h.has_scale
    rw [getDoubleFromAttr_int h.start_type hn] at hstart hstartOf
    rw [getDoubleFromAttr_int h.scale_type hm] at hscale hstepOf
    have hunwrapped : x.read (along r.dimension i) = startOf (.int source) x + i * stepOf (.int source) x r.dimension →
        x.read c = ((source.signed n + i * source.signed m : Int) : ℚ) := by
      intro heq
      rw [← halong, heq, hstartOf, ← intCast_add_mul]
      obtain rfl | hstepOf := hstepOf
      · simp
      · rw [hstepOf]
    cases target with
    | float =>
      obtain ⟨type, htype, -⟩ | heq := hin
      · cases htype
      · rw [createAttrFromDouble_float hstart, createAttrFromDouble_float hscale]
        change x.read c = _
        rw [hunwrapped heq, ← intCast_add_mul]
        rfl
    | int target =>
      rw [createAttrFromDouble_int hstart, createAttrFromDouble_int hscale, truncate_intCast, truncate_intCast]
      have hbits : ∃ p : Int, x.read c = p ∧ (p : ZMod (2 ^ target.width)) = source.signed n + i * source.signed m := by
        obtain ⟨type, htype, hwidth⟩ | heq := hin
        · obtain rfl := ElementType.int.inj htype
          have hle : target.width ≤ (⟨source.width, false⟩ : IntType).width := hwidth
          refine ⟨source.wrap (n + i * m), ?_, ?_⟩
          · rw [hread, hn, hm, intCast_add_mul, cast_int]
          · rw [IntType.zmod_wrap_of_le hwidth, IntType.signed, IntType.signed, IntType.zmod_wrap_of_le hle,
              IntType.zmod_wrap_of_le hle]
            push_cast
            rfl
        · refine ⟨_, hunwrapped heq, ?_⟩
          push_cast
          rfl
      obtain ⟨p, hp, hbits⟩ := hbits
      change (ElementType.int target).cast (x.read c) = _
      dsimp only
      rw [hp, intCast_add_mul]
      apply cast_congr
      rw [hbits]
      push_cast
      simp

def BinaryOp.applyInt : BinaryOp → Int → Int → Int
  | .add, a, b => a + b
  | .subtract, a, b => a - b
  | .multiply, a, b => a * b

theorem apply_intCast (op : BinaryOp) (n m : Int) : op.apply n m = (op.applyInt n m : Int) := by
  cases op <;> simp [BinaryOp.apply, BinaryOp.applyInt]

theorem applyInt_congr {width : Nat} (op : BinaryOp) {n' m' : Int} (hn : (n : ZMod (2 ^ width)) = n')
    (hm : (m : ZMod (2 ^ width)) = m') : (op.applyInt n m : ZMod (2 ^ width)) = (op.applyInt n' m' : Int) := by
  cases op <;> simp [BinaryOp.applyInt, hn, hm]

variable {op : BinaryOp}

theorem roundsInStep_of_ne {type : IntType} (hok : (ElementType.int type).Ok) (hop : op ≠ .multiply)
    (n m : Int) : RoundsInStep (.int type) (op.apply (type.signed n) (type.signed m)) := by
  have hbound : ∀ k, (type.signed k).natAbs ≤ 2 ^ 31 := fun k =>
    (type.natAbs_signed_le (by have := hok.1; omega) k).trans
      (Nat.pow_le_pow_right two_pos (by have := hok.2; omega))
  have hn := hbound n
  have hm := hbound m
  have hlt : (op.applyInt (type.signed n) (type.signed m)).natAbs < 2 ^ 53 := by
    cases op with
    | add | subtract =>
      rw [BinaryOp.applyInt]
      omega
    | multiply => exact absurd rfl hop
  rw [RoundsInStep, apply_intCast, rounded, Int.floor_intCast, roundDouble_of_lt hlt]

theorem createAttrFromDouble_rounded {type : IntType} {attr splat new : TypedAttr} (hattr : attr.type = .int type)
    (hn : attr.value = n) (hsplat : splat.type = .int type) (hm : splat.value = m)
    (hrounds : RoundsInStep (.int type) (op.apply (getDoubleFromAttr attr) (getDoubleFromAttr splat)))
    (h : createAttrFromDouble (.int type)
      (rounded (.int type) (op.apply (getDoubleFromAttr attr) (getDoubleFromAttr splat))) = some new) :
    ∃ k : Int, new.value = k ∧ (k : ZMod (2 ^ type.width)) = (op.applyInt n m : Int) := by
  rw [RoundsInStep, getDoubleFromAttr_int hattr hn, getDoubleFromAttr_int hsplat hm, apply_intCast, rounded,
    Int.floor_intCast, cast_int, cast_int] at hrounds
  rw [getDoubleFromAttr_int hattr hn, getDoubleFromAttr_int hsplat hm, apply_intCast, rounded, Int.floor_intCast] at h
  rw [createAttrFromDouble_int h, truncate_intCast]
  have hbits := IntType.wrap_eq_wrap_iff_zmod.mp (Int.cast_injective hrounds)
  refine ⟨_, rfl, ?_⟩
  rw [IntType.zmod_wrap, hbits]
  exact applyInt_congr op (type.zmod_signed n) (type.zmod_signed m)

theorem cast_apply_eq {type : IntType} {k p q : Int} {i : Nat}
    (h : (op.applyInt (n + i * m) k : ZMod (2 ^ type.width)) = p + i * q) :
    (ElementType.int type).cast (op.apply ((ElementType.int type).cast (n + i * m)) k) =
      (ElementType.int type).cast (p + i * q) := by
  rw [intCast_add_mul, intCast_add_mul, cast_int, apply_intCast]
  apply cast_congr
  rw [applyInt_congr op (type.zmod_wrap _) rfl, h]
  push_cast
  rfl

theorem counts_multiply (h : Counts type x r) (hattr : attr.type = type)
    (hhas : type.Has attr.value) (hshape : y.shape = x.shape)
    (hy : ∀ c, Within x.shape c → y.read c = type.cast (BinaryOp.multiply.apply (x.read c) attr.value))
    (hr : replay r (.binary .multiply attr) = some r')
    (hstep : ∀ c, Within x.shape c → RoundsInStep type (startOf type x * getDoubleFromAttr attr) ∧
      ∀ d < x.shape.length, 1 < coord x.shape d → RoundsInStep type (stepOf type x d * getDoubleFromAttr attr)) :
    Counts type y r' := by
  simp only [replay, bind_eq_bind, bind_eq_some_iff, h.start_type, if_true] at hr
  obtain ⟨start, hstart, scale, hscale, hr⟩ := hr
  cases hr
  obtain ⟨hstartType, hstartHas⟩ := createAttrFromDouble_spec hstart
  obtain ⟨hscaleType, hscaleHas⟩ := createAttrFromDouble_spec hscale
  refine ⟨hstartType, hscaleType, hstartHas, hscaleHas, hshape ▸ h.dimension_lt, fun c hc => ?_⟩
  rw [hshape] at hc
  obtain ⟨hstartRounds, hstepRounds⟩ := hstep c hc
  rw [h.startOf_eq hc] at hstartRounds
  rw [hy c hc, h.read_eq c hc]
  cases type with
  | float =>
    rw [getDoubleFromAttr_float h.start_type, getDoubleFromAttr_float hattr] at hstart
    rw [getDoubleFromAttr_float h.scale_type, getDoubleFromAttr_float hattr] at hscale
    rw [createAttrFromDouble_float hstart, createAttrFromDouble_float hscale]
    simp only [cast_float, BinaryOp.apply, rounded]
    ring
  | int type =>
    obtain ⟨n, hn, -⟩ := h.has_start
    obtain ⟨m, hm, -⟩ := h.has_scale
    obtain ⟨k, hk, -⟩ := hhas
    have hrounds : RoundsInStep (.int type)
        (BinaryOp.multiply.apply (getDoubleFromAttr r.start) (getDoubleFromAttr attr)) := hstartRounds
    obtain ⟨p, hp, hpBits⟩ := createAttrFromDouble_rounded h.start_type hn hattr hk hrounds hstart
    obtain ⟨q, hq, -⟩ := hscaleHas
    rw [hn, hm, hk]
    dsimp only
    rw [hp, hq]
    apply cast_apply_eq
    -- Without a second element it does not matter how the scale is rounded.
    by_cases hzero : c r.dimension = 0
    · simp [hzero, hpBits]
    · have hlt := hc _ h.dimension_lt
      have hstepRounds := hstepRounds _ h.dimension_lt (by omega)
      rw [h.stepOf_eq hc (by omega)] at hstepRounds
      have hrounds : RoundsInStep (.int type)
          (BinaryOp.multiply.apply (getDoubleFromAttr r.scale) (getDoubleFromAttr attr)) := hstepRounds
      obtain ⟨q', hq', hqBits⟩ := createAttrFromDouble_rounded h.scale_type hm hattr hk hrounds hscale
      obtain rfl : q = q' := Int.cast_injective (hq.symm.trans hq')
      rw [hpBits, hqBits]
      simp only [BinaryOp.applyInt]
      push_cast
      ring

theorem counts_sum (hop : op ≠ .multiply) (hok : type.Ok) (h : Counts type x r)
    (hattr : attr.type = type) (hhas : type.Has attr.value) (hshape : y.shape = x.shape)
    (hy : ∀ c, Within x.shape c → y.read c = type.cast (op.apply (x.read c) attr.value))
    (hr : replay r (.binary op attr) = some r') : Counts type y r' := by
  simp only [replay, bind_eq_bind, bind_eq_some_iff, h.start_type, if_neg hop] at hr
  obtain ⟨start, hstart, hr⟩ := hr
  cases hr
  obtain ⟨hstartType, hstartHas⟩ := createAttrFromDouble_spec hstart
  refine ⟨hstartType, h.scale_type, hstartHas, h.has_scale, hshape ▸ h.dimension_lt, fun c hc => ?_⟩
  rw [hshape] at hc
  rw [hy c hc, h.read_eq c hc]
  cases type with
  | float =>
    rw [getDoubleFromAttr_float h.start_type, getDoubleFromAttr_float hattr] at hstart
    rw [createAttrFromDouble_float hstart]
    simp only [cast_float, rounded]
    cases op with
    | add | subtract =>
      simp only [BinaryOp.apply]
      ring
    | multiply => exact absurd rfl hop
  | int type =>
    obtain ⟨n, hn, -⟩ := h.has_start
    obtain ⟨m, hm, -⟩ := h.has_scale
    obtain ⟨k, hk, -⟩ := hhas
    have hrounds := roundsInStep_of_ne hok hop n k
    rw [← getDoubleFromAttr_int h.start_type hn, ← getDoubleFromAttr_int hattr hk] at hrounds
    obtain ⟨p, hp, hpBits⟩ := createAttrFromDouble_rounded h.start_type hn hattr hk hrounds hstart
    rw [hn, hm, hk]
    dsimp only
    rw [hp]
    apply cast_apply_eq
    rw [hpBits]
    cases op with
    | add | subtract =>
      simp only [BinaryOp.applyInt]
      push_cast
      ring
    | multiply => exact absurd rfl hop

theorem counts_binary (hok : type.Ok) (h : Counts type x r) (hattr : attr.type = type) (hhas : type.Has attr.value)
    (hshape : y.shape = x.shape) (hy : ∀ c, Within x.shape c → y.read c = type.cast (op.apply (x.read c) attr.value))
    (hr : replay r (.binary op attr) = some r')
    (hstep : op = .multiply → ∀ c, Within x.shape c → RoundsInStep type (startOf type x * getDoubleFromAttr attr) ∧
      ∀ d < x.shape.length, 1 < coord x.shape d → RoundsInStep type (stepOf type x d * getDoubleFromAttr attr)) :
    Counts type y r' := by
  by_cases hop : op = .multiply
  · subst hop
    exact counts_multiply h hattr hhas hshape hy hr (hstep rfl)
  · exact counts_sum hop hok h hattr hhas hshape hy hr

/-! ### The whole chain -/

theorem ok_of_wellTyped (h : v.WellTyped) : v.type.Ok := by
  induction v with
  | iota type shape dim => exact h.1
  | constant type value =>
    cases value with
    | splat shape value | dense values => exact h.1
  | transpose perm v ih => exact ih h
  | convert type v ih => exact h.1
  | binary op lhs rhs ihl ihr => exact ihl h.2.1
  | other type values => exact h

theorem getSplatValue_eq_some (h : getSplatValue v = some attr) :
    ∃ shape, v = .constant attr.type (.splat shape attr.value) := by
  unfold getSplatValue at h
  split at h
  · cases h
    exact ⟨_, rfl⟩
  · cases h

theorem apply_comm (hop : op ≠ .subtract) (a b : ℚ) : op.apply a b = op.apply b a := by
  cases op with
  | add => exact add_comm a b
  | subtract => exact absurd rfl hop
  | multiply => exact mul_comm a b

theorem exists_followed {lhs rhs : Value} {left : Bool} (hfollowed : followed op lhs rhs = some (left, attr))
    (hwell : (Value.binary op lhs rhs).WellTyped) (heval : (Value.binary op lhs rhs).eval outOfRange = some y) :
    ∃ x, (bif left then lhs else rhs).eval outOfRange = some x ∧ attr.type = lhs.type ∧ lhs.type.Has attr.value ∧
      y.shape = x.shape ∧ ∀ c, Within x.shape c → y.read c = lhs.type.cast (op.apply (x.read c) attr.value) := by
  obtain ⟨htype, hlhs, hrhs⟩ := hwell
  obtain ⟨a, ha, heval⟩ := bind_eq_some_iff.mp heval
  obtain ⟨b, hb, heval⟩ := bind_eq_some_iff.mp heval
  obtain ⟨hshape, heval⟩ := ite_none_right_eq_some.mp heval
  cases heval
  rw [followed] at hfollowed
  cases hright : getSplatValue rhs with
  | some attr' =>
    rw [hright] at hfollowed
    cases some.inj hfollowed
    obtain ⟨shape, rfl⟩ := getSplatValue_eq_some hright
    cases hb
    exact ⟨a, ha, htype.symm, htype ▸ hrhs.2, rfl, fun c _ => rfl⟩
  | none =>
    rw [hright] at hfollowed
    obtain ⟨hop, hfollowed⟩ := ite_none_left_eq_some.mp hfollowed
    obtain ⟨attr', hleft, heq⟩ := map_eq_some_iff.mp hfollowed
    cases heq
    obtain ⟨shape, rfl⟩ := getSplatValue_eq_some hleft
    cases ha
    refine ⟨b, hb, rfl, hlhs.2, hshape, fun c _ => ?_⟩
    rw [apply_comm hop, Tensor.read, Tensor.read, ← hshape]
    rfl

theorem foldlM_reverse_cons {item : ChainItem} (h : (item :: items).reverse.foldlM replay r = some r') :
    ∃ before, items.reverse.foldlM replay r = some before ∧ replay before item = some r' := by
  rw [reverse_cons, foldlM_append, bind_eq_bind, bind_eq_some_iff] at h
  simpa using h

theorem counts_chain {base : Value} (hchain : chain v = some (base, items)) (hwell : v.WellTyped)
    (hstep : v.InStep outOfRange) (heval : v.eval outOfRange = some x) (hbase : baseCase base = some r)
    (hr : items.reverse.foldlM replay r = some r') : Counts v.type x r' := by
  induction v generalizing items x r' with
  | iota type shape dim =>
    cases some.inj hchain
    cases hr
    cases heval
    exact counts_iota hwell.2 hbase
  | constant type value =>
    cases some.inj hchain
    cases hr
    cases heval
    refine counts_constant ?_ hbase
    cases value with
    | splat shape value => exact fun _ _ => hwell.2
    | dense values => exact hwell.2
  | other type values => cases hchain
  | transpose perm v ih =>
    obtain ⟨⟨base', items'⟩, hrest, heq⟩ := map_eq_some_iff.mp hchain
    cases heq
    obtain ⟨t, ht, heval⟩ := bind_eq_some_iff.mp heval
    obtain ⟨before, hbefore, hlast⟩ := foldlM_reverse_cons hr
    exact counts_transpose (ih hrest hwell hstep ht hbefore) heval hlast
  | convert type v ih =>
    obtain ⟨⟨base', items'⟩, hrest, heq⟩ := map_eq_some_iff.mp hchain
    cases heq
    obtain ⟨t, ht, rfl⟩ := map_eq_some_iff.mp heval
    obtain ⟨before, hbefore, hlast⟩ := foldlM_reverse_cons hr
    exact counts_convert (ih hrest hwell.2 hstep.1 ht hbefore) hlast (hstep.2 t ht)
  | binary op lhs rhs ihl ihr =>
    rw [chain] at hchain
    rw [Value.InStep] at hstep
    cases hfollowed : followed op lhs rhs with
    | none =>
      rw [hfollowed] at hchain
      cases hchain
    | some next =>
      obtain ⟨left, attr⟩ := next
      rw [hfollowed] at hchain hstep
      obtain ⟨t, ht, hattr, hhas, hshape, hread⟩ := exists_followed hfollowed hwell heval
      have hok : lhs.type.Ok := ok_of_wellTyped hwell.2.1
      cases left with
      | true =>
        obtain ⟨⟨base', items'⟩, hrest, heq⟩ := map_eq_some_iff.mp hchain
        cases heq
        obtain ⟨before, hbefore, hlast⟩ := foldlM_reverse_cons hr
        have hcounts := ihl hrest hwell.2.1 hstep.1 ht hbefore
        exact counts_binary hok hcounts hattr hhas hshape hread hlast fun hop => hstep.2 hop t ht
      | false =>
        obtain ⟨⟨base', items'⟩, hrest, heq⟩ := map_eq_some_iff.mp hchain
        cases heq
        obtain ⟨before, hbefore, hlast⟩ := foldlM_reverse_cons hr
        have hcounts := ihr hrest hwell.2.2 hstep.1 ht hbefore
        rw [← hwell.1] at hcounts
        refine counts_binary hok hcounts hattr hhas hshape hread hlast fun hop => ?_
        have hmultiplies := hstep.2 hop t ht
        rwa [← hwell.1] at hmultiplies

end

/-- The integers 127 and -128 of eight bits, in 32 bits. -/
def wrapped : Value :=
  .convert (.int ⟨32, false⟩)
    (.binary .add (.iota (.int ⟨8, false⟩) [2] 0) (.constant (.int ⟨8, false⟩) (.splat [2] 127)))

/-- Halves of the numbers from 5 on, in columns. -/
def halves : Value :=
  .binary .multiply
    (.convert .float (.transpose [1, 0]
      (.binary .add (.iota (.int ⟨32, false⟩) [2, 3] 0) (.constant (.int ⟨32, false⟩) (.splat [2, 3] 5)))))
    (.constant .float (.splat [3, 2] (1 / 2)))

end EnzymeJax.IotaLike
