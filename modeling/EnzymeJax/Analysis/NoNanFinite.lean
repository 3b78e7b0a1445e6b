import EnzymeJax.Analysis.GuaranteedResult
import EnzymeJax.Library.Elements
import Mathlib.Data.Set.Card

/-!
# Results without NaN and finite results

Of a float it is told apart whether it is NaN, an infinity or finite. Finite floats may overflow, so an operation
relates the classes of its operands to several classes of the result.
-/

namespace EnzymeJax

open List Option

/-- What is told apart of a float. An integer is finite. -/
inductive ValueClass
  | nan
  | posInf
  | negInf
  | finite
  deriving DecidableEq

namespace ValueClass

def neg : ValueClass → ValueClass
  | nan => nan
  | posInf => negInf
  | negInf => posInf
  | finite => finite

def IsInfinite (x : ValueClass) : Prop := x = posInf ∨ x = negInf

def add : ValueClass → ValueClass → List ValueClass
  | nan, _ | _, nan => [nan]
  | posInf, negInf | negInf, posInf => [nan]
  | posInf, _ | _, posInf => [posInf]
  | negInf, _ | _, negInf => [negInf]
  | finite, finite => [finite, posInf, negInf]

/-- The classes of a product. An infinity times zero is NaN. -/
def mul : ValueClass → ValueClass → List ValueClass
  | nan, _ | _, nan => [nan]
  | posInf, posInf | negInf, negInf => [posInf]
  | posInf, negInf | negInf, posInf => [negInf]
  | finite, finite => [finite, posInf, negInf]
  | _, finite | finite, _ => [posInf, negInf, nan]

end ValueClass

namespace NoNanResultAnalysis

open Tensor GuaranteedResultAnalysis

/-- The elementwise operations with one operand. -/
inductive Unary
  | not
  | abs
  | exp
  | convert
  | tanh
  | logistic
  | floor
  | ceil
  | sine
  | cosine

def Unary.results : Unary → ValueClass → List ValueClass
  | not, _ => [.finite]
  | abs, .negInf => [.posInf]
  | exp, .negInf => [.finite]
  | exp, .finite => [.finite, .posInf]
  | convert, .finite => [.finite, .posInf, .negInf]
  | tanh, .posInf | tanh, .negInf | logistic, .posInf | logistic, .negInf => [.finite]
  | sine, .posInf | sine, .negInf | cosine, .posInf | cosine, .negInf => [.nan]
  | _, x => [x]

/-- The elementwise operations with two operands. -/
inductive Binary
  | and
  | or
  | xor
  | compare
  | add
  | subtract
  | mul
  deriving DecidableEq

def Binary.results : Binary → ValueClass → ValueClass → List ValueClass
  | add, x, y => x.add y
  | subtract, x, y => x.add y.neg
  | mul, x, y => x.mul y
  | _, _, _ => [.finite]

/-- The operations that make the result of the elements of their operands. -/
inductive Movement
  | slice (dims : List SliceDim)
  | concatenate (dim : Nat)
  | broadcastInDim (dims shape : List Nat)
  | reshape (shape : List Nat)
  | transpose (perm : List Nat)

def Movement.eval {α : Type*} : Movement → List (Tensor α) → Option (Tensor α)
  | slice dims, [x] => Tensor.slice dims x
  | concatenate dim, xs => Tensor.concatenate dim xs
  | broadcastInDim dims shape, [x] => x.broadcastInDim dims shape
  | reshape shape, [x] => Tensor.reshape shape x
  | transpose perm, [x] => Tensor.transpose perm x
  | _, _ => none

/-- The operations that the analyses tell apart, and any other, by what it may compute. -/
inductive Op (V : Type*)
  | constant (value : Tensor ValueClass)
  | iota (shape : List Nat) (dim : Nat)
  | unary (f : Unary) (operand : V)
  | binary (f : Binary) (lhs rhs : V)
  | movement (m : Movement) (operands : List V)
  | select (pred onTrue onFalse : V)
  | dynamicSlice (operand : V) (starts : List V) (sizes : List Nat)
  | dynamicUpdateSlice (operand update : V) (starts : List V)
  | other (operands : List V) (computes : List (Tensor ValueClass) → Nat → Tensor ValueClass → Prop)

namespace Op

variable {V : Type*}

def operands : Op V → List V
  | constant _ | iota _ _ => []
  | unary _ operand => [operand]
  | binary _ lhs rhs => [lhs, rhs]
  | movement _ operands => operands
  | select pred onTrue onFalse => [pred, onTrue, onFalse]
  | dynamicSlice operand starts _ => operand :: starts
  | dynamicUpdateSlice operand update starts => operand :: update :: starts
  | other operands _ => operands

/-- The result with the number `n` may be of these classes. Starts of slices and predicates are not told apart. -/
def Computes (env : V → Tensor ValueClass) (n : Nat) (t : Tensor ValueClass) : Op V → Prop
  | constant value => t = value
  | iota shape _ => t.shape = shape ∧ t.All (· ∈ [.finite, .posInf])
  | unary f operand => t.shape = (env operand).shape ∧
    ∀ idx ∈ indices t.shape, t.get idx ∈ f.results ((env operand).get idx)
  | binary f lhs rhs => t.shape = (env lhs).shape ∧ t.shape = (env rhs).shape ∧
    ∀ idx ∈ indices t.shape, t.get idx ∈ f.results ((env lhs).get idx) ((env rhs).get idx)
  | movement m operands => m.eval (operands.map env) = some t
  | select _ onTrue onFalse => t.shape = (env onTrue).shape ∧ t.shape = (env onFalse).shape ∧
    ∀ idx ∈ indices t.shape, t.get idx = (env onTrue).get idx ∨ t.get idx = (env onFalse).get idx
  | dynamicSlice operand _ sizes => ∃ starts, Tensor.dynamicSlice starts sizes (env operand) = some t
  | dynamicUpdateSlice operand update _ =>
    ∃ starts, Tensor.dynamicUpdateSlice starts (env update) (env operand) = some t
  | other operands computes => computes (operands.map env) n t

end Op

/-- The operations of a program and their values. A block argument has no defining operation. -/
structure Program (V O : Type*) where
  definingOp : V → Option O
  resultNumber : V → Nat
  op : O → Op V
  -- the elements of the tensor are integers
  isInteger : V → Bool
  acyclic : WellFounded fun d v => ∃ o, definingOp v = some o ∧ d ∈ (op o).operands

inductive Analysis
  | noNan
  | finite
  deriving DecidableEq

instance : Fintype Analysis := ⟨{.noNan, .finite}, fun a => by cases a <;> decide⟩

/-- A value that an analysis is asked for. -/
abbrev Question (V : Type*) := Analysis × V

/-- What an analysis guarantees of an element. -/
def Analysis.Excludes : Analysis → ValueClass → Prop
  | noNan, x => x ≠ .nan
  | finite, x => x = .finite

namespace Program

variable {V O : Type*} (p : Program V O)

/-- The values of a run, with those of the block arguments as they may be. -/
structure Computes (env : V → Tensor ValueClass) : Prop where
  integers : ∀ v, p.isInteger v = true → (env v).All (· = .finite)
  ops : ∀ v o, p.definingOp v = some o → (p.op o).Computes env (p.resultNumber v) (env v)

/-- No element of the value is what the analysis excludes. -/
def Holds (q : Question V) : Prop := ∀ env, p.Computes env → (env q.2).All q.1.Excludes

/-! ### The analyses -/

def constantFloatCheck (analysis : Analysis) (t : Tensor ValueClass) : Bool :=
  match analysis with
  | .noNan => decide (∀ idx ∈ indices t.shape, t.get idx ≠ .nan)
  | .finite => decide (∀ idx ∈ indices t.shape, t.get idx = .finite)

/-- What there is to do for a value. -/
inductive Rule (V : Type*)
  | notGuaranteed
  | guaranteed
  | operands (operands : List V)
  -- guaranteed if both operands are finite, or by the operands
  | unlessFinite (lhs rhs : V)
  -- not guaranteed unless these are finite, and then by the operands
  | ifFinite (operands : List V)

def constantRule (analysis : Analysis) (v : V) (value : Tensor ValueClass) : Rule V :=
  if p.isInteger v || constantFloatCheck analysis value then .guaranteed else .notGuaranteed

/-- The rules of `NoNanResultAnalysis::localGuaranteed`. -/
def noNanRule (v : V) : Op V → Rule V
  | .constant value => p.constantRule .noNan v value
  | .binary .and _ _ | .binary .or _ _ | .binary .xor _ _ | .unary .not _ | .iota _ _ => .guaranteed
  | .movement _ operands => .operands operands
  | .unary .abs operand | .unary .exp operand | .unary .convert operand | .unary .tanh operand
  | .unary .logistic operand | .unary .floor operand | .unary .ceil operand => .operands [operand]
  | .binary .compare lhs rhs => .operands [lhs, rhs]
  | .binary .add lhs rhs | .binary .subtract lhs rhs => .unlessFinite lhs rhs
  | .unary .sine operand | .unary .cosine operand => .ifFinite [operand]
  | .binary .mul lhs rhs => .ifFinite [lhs, rhs]
  | .select _ onTrue onFalse => .operands [onTrue, onFalse]
  | .dynamicSlice operand _ _ => .operands [operand]
  | .dynamicUpdateSlice operand update _ => .operands [operand, update]
  | .other _ _ => .notGuaranteed

/-- The rules of `FiniteResultAnalysis::localGuaranteed`. -/
def finiteRule (v : V) : Op V → Rule V
  | .constant value => p.constantRule .finite v value
  | .binary .and _ _ | .binary .or _ _ | .binary .xor _ _ | .unary .not _ | .iota _ _ => .guaranteed
  | .movement _ operands => .operands operands
  | .binary .add lhs rhs | .binary .subtract lhs rhs | .binary .mul lhs rhs | .binary .compare lhs rhs =>
    .operands [lhs, rhs]
  | .unary .abs operand | .unary .exp operand | .unary .convert operand => .operands [operand]
  | .unary .tanh _ | .unary .logistic _ | .unary .sine _ | .unary .cosine _ => .guaranteed
  | .unary .floor _ | .unary .ceil _ => .notGuaranteed
  | .select _ onTrue onFalse => .operands [onTrue, onFalse]
  | .dynamicSlice operand _ _ => .operands [operand]
  | .dynamicUpdateSlice operand update _ => .operands [operand, update]
  | .other _ _ => .notGuaranteed

def rule (q : Question V) : Rule V :=
  match p.definingOp q.2 with
  | none => .notGuaranteed
  | some o => match q.1 with
    | .noNan => p.noNanRule q.2 (p.op o)
    | .finite => p.finiteRule q.2 (p.op o)

def hasOp (q : Question V) : Bool := (p.definingOp q.2).isSome

def skip (q : Question V) : Bool := p.isInteger q.2

def ask (q : Question V) (operands : List V) : List (Question V) := operands.map fun d => (q.1, d)

variable [DecidableEq V]

/-- The operands that are not integers. -/
def checkOperands (a : GuaranteedResultAnalysis (Question V)) (q : Question V) (operands : List V) :
    GuaranteedResultAnalysis.State (Question V) :=
  recursivelyCheckOperands a.valueCache p.skip (ask q operands)

/-- The rules of finite results ask nothing of the other analysis. -/
def finiteLocalGuaranteed (a : GuaranteedResultAnalysis (Question V)) (q : Question V) :
    Option (GuaranteedResultAnalysis.State (Question V) × GuaranteedResultAnalysis (Question V)) :=
  match p.rule q with
  | .guaranteed => some (.guaranteed, a)
  | .operands operands => some (p.checkOperands a q operands, a)
  | _ => some (.notGuaranteed, a)

/-- A value is finite, by a query of its own. -/
def finiteGuaranteed (fuel : Nat) (a : GuaranteedResultAnalysis (Question V)) (v : V) :
    Option (Bool × GuaranteedResultAnalysis (Question V)) :=
  GuaranteedResultAnalysis.guaranteed p.hasOp p.finiteLocalGuaranteed fuel a (.finite, v)

def allFinite (fuel : Nat) : GuaranteedResultAnalysis (Question V) → List V →
    Option (Bool × GuaranteedResultAnalysis (Question V))
  | a, [] => some (true, a)
  | a, v :: vs => do
    let (finite, a) ← p.finiteGuaranteed fuel a v
    if finite then allFinite fuel a vs else return (false, a)

def localGuaranteed (fuel : Nat) (a : GuaranteedResultAnalysis (Question V)) (q : Question V) :
    Option (GuaranteedResultAnalysis.State (Question V) × GuaranteedResultAnalysis (Question V)) :=
  match p.rule q with
  | .unlessFinite lhs rhs => do
    let (lhsFinite, a) ← p.finiteGuaranteed fuel a lhs
    let (rhsFinite, a) ← p.finiteGuaranteed fuel a rhs
    return if lhsFinite && rhsFinite then (.guaranteed, a) else (p.checkOperands a q [lhs, rhs], a)
  | .ifFinite operands => do
    let (finite, a) ← p.allFinite fuel a operands
    return if finite then (p.checkOperands a q operands, a) else (.notGuaranteed, a)
  | _ => p.finiteLocalGuaranteed a q

def guaranteed (fuel : Nat) (a : GuaranteedResultAnalysis (Question V)) (q : Question V) :
    Option (Bool × GuaranteedResultAnalysis (Question V)) :=
  GuaranteedResultAnalysis.guaranteed p.hasOp (p.localGuaranteed fuel) fuel a q

/-- What is known after some queries. Another analysis has a cache of its own and finds the attributes of those
before. -/
inductive Known (fuel : Nat) : GuaranteedResultAnalysis (Question V) → Prop
  | start : Known fuel ⟨fun _ => none, fun _ => none⟩
  | query {a a' : GuaranteedResultAnalysis (Question V)} {q : Question V} {guaranteed' : Bool} (h : Known fuel a)
      (hquery : p.guaranteed fuel a q = some (guaranteed', a')) : Known fuel a'
  | renew {a : GuaranteedResultAnalysis (Question V)} (keep : Question V → Bool) (h : Known fuel a) :
      Known fuel ⟨fun q => if keep q then a.valueCache q else none, a.attr⟩

/-! ### What is let through -/

section

omit [DecidableEq V]

def Rule.needs (r : Rule V) : List V :=
  match r with
  | notGuaranteed | guaranteed => []
  | operands ds | ifFinite ds => ds
  | unlessFinite lhs rhs => [lhs, rhs]

def needs (q : Question V) : List (Question V) := (ask q (p.rule q).needs).filter fun d => !p.skip d

/-- The questions that the rules answer with yes. -/
inductive Accepted : Question V → Prop
  | guaranteed {q : Question V} (h : p.rule q = .guaranteed) : Accepted q
  | operands {q : Question V} {ds : List V} (h : p.rule q = .operands ds) (hall : ∀ d ∈ p.needs q, Accepted d) :
      Accepted q
  | bothFinite {q : Question V} {lhs rhs : V} (h : p.rule q = .unlessFinite lhs rhs)
      (hlhs : Accepted (.finite, lhs)) (hrhs : Accepted (.finite, rhs)) : Accepted q
  | notFinite {q : Question V} {lhs rhs : V} (h : p.rule q = .unlessFinite lhs rhs)
      (hall : ∀ d ∈ p.needs q, Accepted d) : Accepted q
  | ifFinite {q : Question V} {ds : List V} (h : p.rule q = .ifFinite ds)
      (hfinite : ∀ d ∈ ds, Accepted (.finite, d)) (hall : ∀ d ∈ p.needs q, Accepted d) : Accepted q

variable {p}

theorem accepted_iff {q : Question V} : p.Accepted q ↔
    match p.rule q with
    | .notGuaranteed => False
    | .guaranteed => True
    | .operands _ => ∀ d ∈ p.needs q, p.Accepted d
    | .unlessFinite lhs rhs =>
      (p.Accepted (.finite, lhs) ∧ p.Accepted (.finite, rhs)) ∨ ∀ d ∈ p.needs q, p.Accepted d
    | .ifFinite ds => (∀ d ∈ ds, p.Accepted (.finite, d)) ∧ ∀ d ∈ p.needs q, p.Accepted d := by
  constructor
  · intro h
    cases h with
    | guaranteed h => rw [h]; trivial
    | operands h hall => rw [h]; exact hall
    | bothFinite h hlhs hrhs => rw [h]; exact .inl ⟨hlhs, hrhs⟩
    | notFinite h hall => rw [h]; exact .inr hall
    | ifFinite h hfinite hall => rw [h]; exact ⟨hfinite, hall⟩
  · intro h
    cases hrule : p.rule q with
    | notGuaranteed => rw [hrule] at h; exact h.elim
    | guaranteed => exact .guaranteed hrule
    | operands ds => rw [hrule] at h; exact .operands hrule h
    | unlessFinite lhs rhs =>
      rw [hrule] at h
      exact h.elim (fun h => .bothFinite hrule h.1 h.2) (.notFinite hrule)
    | ifFinite ds => rw [hrule] at h; exact .ifFinite hrule h.1 h.2

/-- A value is an operand of the operation that another is a result of. -/
def Operand (p : Program V O) (d v : V) : Prop := ∃ o, p.definingOp v = some o ∧ d ∈ (p.op o).operands

theorem needs_constantRule (analysis : Analysis) (v : V) (value : Tensor ValueClass) :
    (p.constantRule analysis v value).needs = [] := by
  rw [constantRule]
  split
  · rfl
  · rfl

theorem mem_operands_of_rule {op : Op V} {v d : V}
    (h : d ∈ (p.noNanRule v op).needs ∨ d ∈ (p.finiteRule v op).needs) : d ∈ op.operands := by
  cases op with
  | constant value =>
    rw [noNanRule, finiteRule, needs_constantRule, needs_constantRule] at h
    exact h.elim id id
  | unary f operand | binary f lhs rhs => cases f <;> rcases h with h | h <;> first | exact h | cases h
  | iota shape dim | movement m operands => exact h.elim id id
  | select pred onTrue onFalse => exact mem_cons_of_mem _ (h.elim id id)
  | dynamicSlice operand starts sizes => exact mem_singleton.mp (h.elim id id) ▸ mem_cons_self
  | dynamicUpdateSlice operand update starts => exact (prefix_append [operand, update] starts).subset (h.elim id id)
  | other operands computes => exact h.elim nofun nofun

theorem operand_of_needs {q : Question V} {d : V} (h : d ∈ (p.rule q).needs) : p.Operand d q.2 := by
  rw [rule] at h
  split at h
  · cases h
  · rename_i o hop
    refine ⟨o, hop, ?_⟩
    split at h
    · exact mem_operands_of_rule (.inl h)
    · exact mem_operands_of_rule (.inr h)

theorem operand_of_mem_needs {q d : Question V} (h : d ∈ p.needs q) : p.Operand d.2 q.2 := by
  obtain ⟨v, hv, rfl⟩ := mem_map.mp (mem_filter.mp h).1
  exact operand_of_needs hv

theorem fst_of_mem_needs {q d : Question V} (h : d ∈ p.needs q) : d.1 = q.1 := by
  obtain ⟨v, -, rfl⟩ := mem_map.mp (mem_filter.mp h).1
  rfl

theorem rule_finite (q : Question V) (hq : q.1 = .finite) : p.rule q = .notGuaranteed ∨ p.rule q = .guaranteed ∨
    ∃ ds, p.rule q = .operands ds := by
  rw [rule, hq]
  split
  · exact .inl rfl
  · rename_i o hop
    dsimp only
    cases p.op o with
    | constant value =>
      rw [finiteRule, constantRule]
      split
      · exact .inr (.inl rfl)
      · exact .inl rfl
    | unary f operand =>
      cases f with
      | abs | exp | convert => exact .inr (.inr ⟨_, rfl⟩)
      | floor | ceil => exact .inl rfl
      | _ => exact .inr (.inl rfl)
    | binary f lhs rhs =>
      cases f with
      | and | or | xor => exact .inr (.inl rfl)
      | _ => exact .inr (.inr ⟨_, rfl⟩)
    | iota shape dim => exact .inr (.inl rfl)
    | other operands computes => exact .inl rfl
    | _ => exact .inr (.inr ⟨_, rfl⟩)

end

/-! ### The queries -/

variable {p} {a : GuaranteedResultAnalysis (Question V)} {q : Question V}

def meaning (p : Program V O) : Meaning (Question V) :=
  Meaning.ofAccepted p.Accepted (fun d q => p.Operand d.2 q.2) p.needs (InvImage.wf Prod.snd p.acyclic)

theorem checkOperands_ok (ha : p.meaning.Correct a) {ds : List V} (hds : (p.rule q).needs = ds)
    (hiff : p.Accepted q ↔ ∀ d ∈ p.needs q, p.Accepted d) : p.meaning.StateOk q (p.checkOperands a q ds) :=
  Meaning.recursivelyCheckOperands_ok ha (by rw [needs, hds]) (fun _ => operand_of_mem_needs) hiff

theorem finiteLocalGuaranteed_ok (I : Finset (Question V)) (hI : ∀ q ∈ I, q.1 = .finite) :
    p.meaning.LocalOk p.finiteLocalGuaranteed I := by
  intro a ha q hq
  rw [finiteLocalGuaranteed]
  obtain hrule | hrule | ⟨ds, hrule⟩ := rule_finite q (hI q hq)
  · rw [hrule]
    refine ⟨_, a, rfl, fun haccepted => ?_, ha, .refl a⟩
    have haccepted := accepted_iff.mp haccepted
    rw [hrule] at haccepted
    exact haccepted
  · rw [hrule]
    exact ⟨_, a, rfl, .guaranteed hrule, ha, .refl a⟩
  · rw [hrule]
    refine ⟨_, a, rfl, checkOperands_ok ha (by rw [hrule]; rfl) ?_, ha, .refl a⟩
    rw [accepted_iff, hrule]

section

variable [Fintype V]

/-- The fuel that a query needs. -/
def bound (p : Program V O) : Nat := 2 * ∑ q, (p.needs q).length + 5

variable {fuel : Nat}

section

variable (hfuel : p.bound ≤ fuel)

include hfuel

theorem finiteGuaranteed_spec (ha : p.meaning.Correct a) (v : V) :
    ∃ guaranteed' a', p.finiteGuaranteed fuel a v = some (guaranteed', a') ∧
      (guaranteed' = true ↔ p.Accepted (.finite, v)) ∧ p.meaning.Correct a' ∧ Meaning.Keeps a a' := by
  have hlocal := finiteLocalGuaranteed_ok (p := p) (Finset.univ.filter fun q => q.1 = .finite)
    fun q hq => (Finset.mem_filter.mp hq).2
  have hsum : ∑ q ∈ Finset.univ.filter (fun q : Question V => q.1 = .finite), (p.meaning.needs q).length ≤
      ∑ q, (p.needs q).length := Finset.sum_le_sum_of_subset (Finset.filter_subset _ _)
  rw [bound] at hfuel
  refine Meaning.guaranteed_spec p.hasOp hlocal (fun q hq d hd => ?_) ha ?_ (by omega)
  · exact Finset.mem_filter.mpr ⟨Finset.mem_univ d, (fst_of_mem_needs hd).trans (Finset.mem_filter.mp hq).2⟩
  · exact Finset.mem_filter.mpr ⟨Finset.mem_univ _, rfl⟩

theorem allFinite_spec (ha : p.meaning.Correct a) (vs : List V) :
    ∃ finite a', p.allFinite fuel a vs = some (finite, a') ∧
      (finite = true ↔ ∀ v ∈ vs, p.Accepted (.finite, v)) ∧ p.meaning.Correct a' ∧ Meaning.Keeps a a' := by
  induction vs generalizing a with
  | nil => exact ⟨true, a, rfl, iff_of_true rfl nofun, ha, .refl a⟩
  | cons v vs ih =>
    obtain ⟨finite, a₁, hquery, hiff, ha₁, hkeeps₁⟩ := finiteGuaranteed_spec hfuel ha v
    rw [allFinite, hquery]
    cases finite with
    | false =>
      refine ⟨false, a₁, rfl, iff_of_false Bool.false_ne_true fun h => ?_, ha₁, hkeeps₁⟩
      exact Bool.false_ne_true (hiff.mpr (h v mem_cons_self))
    | true =>
      obtain ⟨finite, a₂, hall, hiff₂, ha₂, hkeeps₂⟩ := ih ha₁
      refine ⟨finite, a₂, hall, ?_, ha₂, hkeeps₁.trans hkeeps₂⟩
      rw [hiff₂, forall_mem_cons, and_iff_right (hiff.mp rfl)]

theorem localGuaranteed_ok :
    p.meaning.LocalOk (p.localGuaranteed fuel) Finset.univ := by
  intro a ha q _
  rw [localGuaranteed]
  cases hrule : p.rule q with
  | notGuaranteed =>
    refine ⟨.notGuaranteed, a, by simp only [finiteLocalGuaranteed, hrule], fun haccepted => ?_, ha, .refl a⟩
    have haccepted := accepted_iff.mp haccepted
    rw [hrule] at haccepted
    exact haccepted
  | guaranteed =>
    exact ⟨.guaranteed, a, by simp only [finiteLocalGuaranteed, hrule], .guaranteed hrule, ha, .refl a⟩
  | operands ds =>
    refine ⟨p.checkOperands a q ds, a, by simp only [finiteLocalGuaranteed, hrule],
      checkOperands_ok ha (by rw [hrule]; rfl) ?_, ha, .refl a⟩
    rw [accepted_iff, hrule]
  | unlessFinite lhs rhs =>
    obtain ⟨lhsFinite, a₁, hlhs, hlhs', ha₁, hkeeps₁⟩ := finiteGuaranteed_spec hfuel ha lhs
    obtain ⟨rhsFinite, a₂, hrhs, hrhs', ha₂, hkeeps₂⟩ := finiteGuaranteed_spec hfuel ha₁ rhs
    have hiff : p.Accepted q ↔ (lhsFinite && rhsFinite) = true ∨ ∀ d ∈ p.needs q, p.Accepted d := by
      rw [accepted_iff, hrule, Bool.and_eq_true, hlhs', hrhs']
    simp only [hlhs, hrhs, bind_eq_bind, bind_some]
    cases hboth : lhsFinite && rhsFinite with
    | true => exact ⟨_, a₂, rfl, hiff.mpr (.inl hboth), ha₂, hkeeps₁.trans hkeeps₂⟩
    | false =>
      refine ⟨_, a₂, rfl, checkOperands_ok ha₂ (by rw [hrule]; rfl) ?_, ha₂, hkeeps₁.trans hkeeps₂⟩
      rw [hiff, hboth, or_iff_right Bool.false_ne_true]
  | ifFinite ds =>
    obtain ⟨finite, a₁, hall, hall', ha₁, hkeeps₁⟩ := allFinite_spec hfuel ha ds
    have hiff : p.Accepted q ↔ finite = true ∧ ∀ d ∈ p.needs q, p.Accepted d := by
      rw [accepted_iff, hrule, hall']
    simp only [hall, bind_eq_bind, bind_some]
    cases finite with
    | true =>
      refine ⟨_, a₁, rfl, checkOperands_ok ha₁ (by rw [hrule]; rfl) ?_, ha₁, hkeeps₁⟩
      rw [hiff, and_iff_right rfl]
    | false =>
      refine ⟨_, a₁, rfl, fun haccepted => ?_, ha₁, hkeeps₁⟩
      exact Bool.false_ne_true (hiff.mp haccepted).1

theorem guaranteed_spec (ha : p.meaning.Correct a) (q : Question V) :
    ∃ guaranteed' a', p.guaranteed fuel a q = some (guaranteed', a') ∧
      (guaranteed' = true ↔ p.Accepted q) ∧ p.meaning.Correct a' := by
  obtain ⟨guaranteed', a', hquery, hiff, hcorrect, -⟩ := Meaning.guaranteed_spec p.hasOp (localGuaranteed_ok hfuel)
    (fun _ _ d _ => Finset.mem_univ d) ha (Finset.mem_univ q) hfuel
  exact ⟨guaranteed', a', hquery, hiff, hcorrect⟩

theorem Known.correct (h : p.Known fuel a) : p.meaning.Correct a := by
  induction h with
  | start => exact ⟨nofun, nofun⟩
  | @query a a' q guaranteed' _ hquery ih =>
    obtain ⟨guaranteed'', a'', hquery', -, hcorrect⟩ := guaranteed_spec hfuel ih q
    rw [hquery] at hquery'
    obtain ⟨-, rfl⟩ := Prod.mk.inj (some.inj hquery')
    exact hcorrect
  | renew keep _ ih =>
    refine ⟨fun q b hb => ?_, ih.attr⟩
    dsimp only at hb
    split at hb
    · exact ih.cache q b hb
    · cases hb

end

end

end Program

/-! ### Classes of results -/

section

variable {f : Unary} {g : Binary} {x y z : ValueClass}

theorem Unary.ne_nan (hf : f = .sine ∨ f = .cosine → x = .finite) (hx : x ≠ .nan)
    (hy : y ∈ f.results x) : y ≠ .nan := by
  rintro rfl
  cases f <;> cases x <;> simp [Unary.results] at hf hx hy

theorem add_ne_nan (hx : x ≠ .nan) (hy : y ≠ .nan) (hxy : ¬(x.IsInfinite ∧ y = x.neg)) (hz : z ∈ x.add y) :
    z ≠ .nan := by
  rintro rfl
  cases x <;> cases y <;> simp [ValueClass.add, ValueClass.IsInfinite, ValueClass.neg] at hx hy hxy hz

theorem nan_of_opposite (hxy : x.IsInfinite ∧ y = x.neg) (hz : z ∈ x.add y) : z = .nan := by
  obtain ⟨rfl | rfl, rfl⟩ := hxy
  · exact mem_singleton.mp hz
  · exact mem_singleton.mp hz

theorem neg_neg (x : ValueClass) : x.neg.neg = x := by cases x <;> rfl

theorem neg_ne_nan (hx : x ≠ .nan) : x.neg ≠ .nan := by
  intro h
  exact hx (by rw [← neg_neg x, h]; rfl)

theorem Binary.finite_or_infinite (hz : z ∈ g.results .finite .finite) : z = .finite ∨ z.IsInfinite := by
  cases g <;> cases z <;> simp [Binary.results, ValueClass.add, ValueClass.mul, ValueClass.neg, ValueClass.IsInfinite] at hz ⊢

theorem Movement.draws {α : Type*} {m : Movement} {xs : List (Tensor α)} {t : Tensor α} (h : m.eval xs = some t) :
    Draws xs t := by
  cases m with
  | slice dims =>
    match xs, h with
    | [x], h => exact draws_slice h
  | concatenate dim => exact draws_concatenate h
  | broadcastInDim dims shape =>
    match xs, h with
    | [x], h => exact draws_broadcastInDim h
  | reshape shape =>
    match xs, h with
    | [x], h => exact draws_reshape h
  | transpose perm =>
    match xs, h with
    | [x], h => exact draws_transpose h

end

namespace Program

variable {V O : Type*} {p : Program V O} {env : V → Tensor ValueClass} {v : V} {o : O} {ds : List V}

/-! ### When the analyses are right -/

/-- What has to hold of an operation in a run: what is said to be finite does not overflow, where the result is said
to be finite whatever the operand is it is, and no infinity is taken from itself. -/
def OpOk (p : Program V O) (env : V → Tensor ValueClass) (v : V) : Op V → Prop
  | .iota _ _ => (env v).All fun x => ¬x.IsInfinite
  | .unary .exp _ | .unary .convert _ | .binary .mul _ _ =>
    p.Accepted (.finite, v) → (env v).All fun x => ¬x.IsInfinite
  | .unary .tanh operand | .unary .logistic operand => (env operand).All (· ≠ .nan)
  | .unary .sine operand | .unary .cosine operand => (env operand).All (· = .finite)
  | .binary .add lhs rhs => (p.Accepted (.finite, v) → (env v).All fun x => ¬x.IsInfinite) ∧
    (p.Accepted (.noNan, v) → ∀ idx ∈ indices (env v).shape,
      ¬(((env lhs).get idx).IsInfinite ∧ (env rhs).get idx = ((env lhs).get idx).neg))
  | .binary .subtract lhs rhs => (p.Accepted (.finite, v) → (env v).All fun x => ¬x.IsInfinite) ∧
    (p.Accepted (.noNan, v) → ∀ idx ∈ indices (env v).shape,
      ¬(((env lhs).get idx).IsInfinite ∧ (env rhs).get idx = (env lhs).get idx))
  | _ => True

def OperandsOk (p : Program V O) : Prop :=
  ∀ env, p.Computes env → ∀ v o, p.definingOp v = some o → p.OpOk env v (p.op o)

theorem excludes_of_finite (analysis : Analysis) : analysis.Excludes .finite := by
  cases analysis with
  | noNan => exact nofun
  | finite => rfl

variable {q : Question V}

theorem all_of_needs (henv : p.Computes env) (h : ∀ d ∈ p.needs q, (env d.2).All d.1.Excludes) {d : V}
    (hd : d ∈ (p.rule q).needs) : (env d).All q.1.Excludes := by
  cases hint : p.isInteger d with
  | true =>
    intro idx hidx
    rw [henv.integers d hint idx hidx]
    exact excludes_of_finite q.1
  | false =>
    have hmem : (q.1, d) ∈ p.needs q :=
      mem_filter.mpr ⟨mem_map.mpr ⟨d, hd, rfl⟩, by rw [skip, hint]; rfl⟩
    exact h _ hmem

/-! ### The results of operations -/

section

variable {f : Unary} {g : Binary} {m : Movement} {n : Nat} {t : Tensor ValueClass} {x y u pred : V} {starts : List V}
  {sizes : List Nat} {P Q : ValueClass → Prop}

theorem all_unary (h : (Op.unary f x).Computes env n t) (hx : (env x).All P)
    (hres : ∀ a b, P a → b ∈ f.results a → Q b) : t.All Q := fun idx hidx =>
  hres _ _ (hx idx (h.1 ▸ hidx)) (h.2 idx hidx)

theorem all_binary (h : (Op.binary g x y).Computes env n t) (hx : (env x).All P) (hy : (env y).All P)
    (hres : ∀ a b c, P a → P b → c ∈ g.results a b → Q c) : t.All Q := fun idx hidx =>
  hres _ _ _ (hx idx (h.1 ▸ hidx)) (hy idx (h.2.1 ▸ hidx)) (h.2.2 idx hidx)

theorem all_movement (h : (Op.movement m ds).Computes env n t) (hds : ∀ d ∈ ds, (env d).All P) : t.All P := by
  refine (Movement.draws h).all fun z hz => ?_
  obtain ⟨d, hd, rfl⟩ := mem_map.mp hz
  exact hds d hd

theorem all_select (h : (Op.select pred x y).Computes env n t) (hds : ∀ d ∈ [x, y], (env d).All P) : t.All P := by
  intro idx hidx
  obtain ⟨hx, hy, hget⟩ := h
  obtain heq | heq := hget idx hidx
  · rw [heq]
    exact hds x mem_cons_self idx (hx ▸ hidx)
  · rw [heq]
    exact hds y (mem_cons_of_mem _ mem_cons_self) idx (hy ▸ hidx)

theorem all_dynamicSlice (h : (Op.dynamicSlice x starts sizes).Computes env n t) (hds : ∀ d ∈ [x], (env d).All P) :
    t.All P := by
  obtain ⟨ss, hss⟩ := h
  exact (draws_dynamicSlice hss).all (by simpa using hds)

theorem all_dynamicUpdateSlice (h : (Op.dynamicUpdateSlice x u starts).Computes env n t)
    (hds : ∀ d ∈ [x, u], (env d).All P) : t.All P := by
  obtain ⟨ss, hss⟩ := h
  exact (draws_dynamicUpdateSlice hss).all (by simpa using hds)

theorem noNan_of_operands {op : Op V} (h : op.Computes env n t) (hrule : p.noNanRule v op = .operands ds)
    (hds : ∀ d ∈ ds, (env d).All (· ≠ .nan)) : t.All (· ≠ .nan) := by
  cases op with
  | constant value =>
    rw [noNanRule, constantRule] at hrule
    split at hrule <;> cases hrule
  | unary f operand =>
    have hunary : ∀ {f}, (Op.unary f operand).Computes env n t → f ≠ .sine → f ≠ .cosine →
        (env operand).All (· ≠ .nan) → t.All (· ≠ .nan) := fun h hsine hcosine hoperand =>
      all_unary h hoperand fun _ _ ha hb => Unary.ne_nan (fun hf => (hf.elim hsine hcosine).elim) ha hb
    cases f with
    | not | sine | cosine => cases hrule
    | _ =>
      obtain rfl := Rule.operands.inj hrule
      exact hunary h nofun nofun (hds operand mem_cons_self)
  | binary g lhs rhs =>
    cases g with
    | compare => exact fun idx hidx heq => by cases heq.symm.trans (mem_singleton.mp (h.2.2 idx hidx))
    | _ => cases hrule
  | movement m operands =>
    obtain rfl := Rule.operands.inj hrule
    exact all_movement h hds
  | select pred onTrue onFalse =>
    obtain rfl := Rule.operands.inj hrule
    exact all_select h hds
  | dynamicSlice operand starts sizes =>
    obtain rfl := Rule.operands.inj hrule
    exact all_dynamicSlice h hds
  | dynamicUpdateSlice operand update starts =>
    obtain rfl := Rule.operands.inj hrule
    exact all_dynamicUpdateSlice h hds
  | iota shape dim | other operands computes => cases hrule

theorem finite_of_operands {op : Op V} (h : op.Computes env n (env v)) (hok : p.OpOk env v op)
    (haccepted : p.Accepted (.finite, v)) (hrule : p.finiteRule v op = .operands ds)
    (hds : ∀ d ∈ ds, (env d).All (· = .finite)) : (env v).All (· = .finite) := by
  have hbinary : ∀ {g lhs rhs}, (Op.binary g lhs rhs).Computes env n (env v) → ds = [lhs, rhs] →
      (env v).All (fun x => ¬x.IsInfinite) → (env v).All (· = .finite) := by
    rintro g lhs rhs h rfl hfinite idx hidx
    have hres : (env v).All fun z => z = .finite ∨ z.IsInfinite :=
      all_binary h (hds lhs mem_cons_self) (hds rhs (mem_cons_of_mem _ mem_cons_self))
        fun a b c ha hb hc => Binary.finite_or_infinite (by rwa [ha, hb] at hc)
    exact (hres idx hidx).resolve_right (hfinite idx hidx)
  cases op with
  | constant value =>
    rw [finiteRule, constantRule] at hrule
    split at hrule <;> cases hrule
  | unary f operand =>
    have hunary : ∀ {f}, (Op.unary f operand).Computes env n (env v) → ds = [operand] →
        (∀ b ∈ f.results .finite, b = .finite ∨ b.IsInfinite) →
          (env v).All (fun x => ¬x.IsInfinite) → (env v).All (· = .finite) := by
      rintro f h rfl hresults hfinite idx hidx
      have hres : (env v).All fun z => z = .finite ∨ z.IsInfinite :=
        all_unary h (hds operand mem_cons_self) fun a b ha hb => hresults b (ha ▸ hb)
      exact (hres idx hidx).resolve_right (hfinite idx hidx)
    cases f with
    | abs =>
      obtain rfl := Rule.operands.inj hrule
      exact all_unary h (hds operand mem_cons_self) fun a b ha hb => by
        subst ha
        exact mem_singleton.mp hb
    | exp =>
      refine hunary h (Rule.operands.inj hrule).symm (fun b hb => ?_) (hok haccepted)
      obtain rfl | rfl : b = .finite ∨ b = .posInf := by simpa [Unary.results] using hb
      · exact .inl rfl
      · exact .inr (.inl rfl)
    | convert =>
      refine hunary h (Rule.operands.inj hrule).symm (fun b hb => ?_) (hok haccepted)
      simpa [Unary.results, ValueClass.IsInfinite] using hb
    | _ => cases hrule
  | binary g lhs rhs =>
    cases g with
    | add | subtract => exact hbinary h (Rule.operands.inj hrule).symm (hok.1 haccepted)
    | mul => exact hbinary h (Rule.operands.inj hrule).symm (hok haccepted)
    | compare => exact fun idx hidx => mem_singleton.mp (h.2.2 idx hidx)
    | _ => cases hrule
  | movement m operands =>
    obtain rfl := Rule.operands.inj hrule
    exact all_movement h hds
  | select pred onTrue onFalse =>
    obtain rfl := Rule.operands.inj hrule
    exact all_select h hds
  | dynamicSlice operand starts sizes =>
    obtain rfl := Rule.operands.inj hrule
    exact all_dynamicSlice h hds
  | dynamicUpdateSlice operand update starts =>
    obtain rfl := Rule.operands.inj hrule
    exact all_dynamicUpdateSlice h hds
  | iota shape dim | other operands computes => cases hrule

theorem all_constant {analysis : Analysis} {value : Tensor ValueClass} (henv : p.Computes env)
    (h : (Op.constant value).Computes env n (env v)) (hrule : p.constantRule analysis v value = .guaranteed) :
    (env v).All analysis.Excludes := by
  rw [constantRule] at hrule
  split at hrule
  · rename_i hcheck
    obtain hint | hcheck := Bool.or_eq_true_iff.mp hcheck
    · intro idx hidx
      rw [henv.integers v hint idx hidx]
      exact excludes_of_finite analysis
    · rw [show env v = value from h]
      cases analysis with
      | noNan =>
        have hclasses : ∀ idx ∈ indices value.shape, value.get idx ≠ .nan := of_decide_eq_true hcheck
        exact hclasses
      | finite =>
        have hclasses : ∀ idx ∈ indices value.shape, value.get idx = .finite := of_decide_eq_true hcheck
        exact hclasses
  · cases hrule

theorem noNan_of_guaranteed {op : Op V} (henv : p.Computes env) (h : op.Computes env n (env v))
    (hrule : p.noNanRule v op = .guaranteed) : (env v).All (· ≠ .nan) := by
  have hfinite : (∀ idx ∈ indices (env v).shape, (env v).get idx ∈ [ValueClass.finite]) → (env v).All (· ≠ .nan) :=
    fun hall idx hidx heq => by cases heq.symm.trans (mem_singleton.mp (hall idx hidx))
  cases op with
  | constant value => exact all_constant henv h hrule
  | iota shape dim =>
    intro idx hidx heq
    have hclass : (env v).get idx = .finite ∨ (env v).get idx = .posInf := by simpa using h.2 idx hidx
    rw [heq] at hclass
    exact hclass.elim nofun nofun
  | unary f operand =>
    cases f with
    | not => exact hfinite h.2
    | _ => cases hrule
  | binary g lhs rhs =>
    cases g with
    | and | or | xor => exact hfinite h.2.2
    | _ => cases hrule
  | _ => cases hrule

theorem finite_of_guaranteed {op : Op V} (henv : p.Computes env) (h : op.Computes env n (env v))
    (hok : p.OpOk env v op) (hrule : p.finiteRule v op = .guaranteed) : (env v).All (· = .finite) := by
  have hfinite : (∀ idx ∈ indices (env v).shape, (env v).get idx ∈ [ValueClass.finite]) → (env v).All (· = .finite) :=
    fun hall idx hidx => mem_singleton.mp (hall idx hidx)
  cases op with
  | constant value => exact all_constant henv h hrule
  | iota shape dim =>
    intro idx hidx
    have hclass : (env v).get idx = .finite ∨ (env v).get idx = .posInf := by simpa using h.2 idx hidx
    exact hclass.resolve_right fun heq => hok idx hidx (.inl heq)
  | unary f operand =>
    cases f with
    | not => exact hfinite h.2
    | tanh | logistic =>
      have hoperand : (env operand).All (· ≠ .nan) := hok
      refine all_unary h hoperand fun a b ha hb => ?_
      cases a with
      | nan => exact absurd rfl ha
      | _ => exact mem_singleton.mp hb
    | sine | cosine =>
      have hoperand : (env operand).All (· = .finite) := hok
      refine all_unary h hoperand fun a b ha hb => ?_
      subst ha
      exact mem_singleton.mp hb
    | _ => cases hrule
  | binary g lhs rhs =>
    cases g with
    | and | or | xor => exact hfinite h.2.2
    | _ => cases hrule
  | _ => cases hrule

theorem noNan_of_unlessFinite {op : Op V} (h : op.Computes env n (env v)) (hok : p.OpOk env v op)
    (haccepted : p.Accepted (.noNan, v)) (hrule : p.noNanRule v op = .unlessFinite x y)
    (hx : (env x).All (· ≠ .nan)) (hy : (env y).All (· ≠ .nan)) : (env v).All (· ≠ .nan) := by
  cases op with
  | constant value =>
    rw [noNanRule, constantRule] at hrule
    split at hrule <;> cases hrule
  | unary f operand => cases f <;> cases hrule
  | binary g lhs rhs =>
    obtain ⟨hlhs, hrhs, hget⟩ := h
    cases g with
    | add =>
      obtain ⟨rfl, rfl⟩ := Rule.unlessFinite.inj hrule
      exact fun idx hidx => add_ne_nan (hx idx (hlhs ▸ hidx)) (hy idx (hrhs ▸ hidx)) (hok.2 haccepted idx hidx)
        (hget idx hidx)
    | subtract =>
      obtain ⟨rfl, rfl⟩ := Rule.unlessFinite.inj hrule
      refine fun idx hidx => add_ne_nan (hx idx (hlhs ▸ hidx)) (neg_ne_nan (hy idx (hrhs ▸ hidx))) (fun hsame => ?_)
        (hget idx hidx)
      refine hok.2 haccepted idx hidx ⟨hsame.1, ?_⟩
      rw [← neg_neg ((env rhs).get idx), hsame.2, neg_neg]
    | _ => cases hrule
  | _ => cases hrule

theorem noNan_of_ifFinite {op : Op V} (h : op.Computes env n (env v)) (hrule : p.noNanRule v op = .ifFinite ds)
    (hds : ∀ d ∈ ds, (env d).All (· = .finite)) : (env v).All (· ≠ .nan) := by
  cases op with
  | constant value =>
    rw [noNanRule, constantRule] at hrule
    split at hrule <;> cases hrule
  | unary f operand =>
    cases f with
    | sine | cosine =>
      obtain rfl := Rule.ifFinite.inj hrule
      refine all_unary h (hds operand mem_cons_self) fun a b ha hb => ?_
      exact Unary.ne_nan (fun _ => ha) (by rw [ha]; nofun) hb
    | _ => cases hrule
  | binary g lhs rhs =>
    cases g with
    | mul =>
      obtain rfl := Rule.ifFinite.inj hrule
      refine all_binary h (hds lhs mem_cons_self) (hds rhs (mem_cons_of_mem _ mem_cons_self))
        fun a b c ha hb hc => ?_
      rw [ha, hb] at hc
      obtain rfl | rfl | rfl := Binary.finite_or_infinite hc
      · nofun
      · nofun
      · nofun
    | _ => cases hrule
  | _ => cases hrule

end

theorem exists_definingOp (h : p.Accepted q) : ∃ o, p.definingOp q.2 = some o := by
  cases hop : p.definingOp q.2 with
  | some o => exact ⟨o, rfl⟩
  | none =>
    have hfalse := accepted_iff.mp h
    simp only [rule, hop] at hfalse

theorem rule_noNan (hop : p.definingOp v = some o) : p.rule (.noNan, v) = p.noNanRule v (p.op o) := by
  simp only [rule, hop]

theorem rule_finite_eq (hop : p.definingOp v = some o) : p.rule (.finite, v) = p.finiteRule v (p.op o) := by
  simp only [rule, hop]

/-- What is let through holds if the operations are as they have to be. -/
theorem Accepted.holds (hok : p.OperandsOk) (h : p.Accepted q) : p.Holds q := by
  intro env henv
  have haccepted := h
  induction h with
  | @guaranteed q hrule =>
    obtain ⟨o, hop⟩ := exists_definingOp haccepted
    obtain ⟨analysis, v⟩ := q
    cases analysis with
    | noNan => exact noNan_of_guaranteed henv (henv.ops v o hop) (rule_noNan hop ▸ hrule)
    | finite => exact finite_of_guaranteed henv (henv.ops v o hop) (hok env henv v o hop) (rule_finite_eq hop ▸ hrule)
  | @operands q ds hrule hall ih =>
    obtain ⟨o, hop⟩ := exists_definingOp haccepted
    have hds : ∀ d ∈ ds, (env d).All q.1.Excludes := fun d hd =>
      all_of_needs henv (fun d hd => ih d hd (hall d hd)) (by rw [hrule]; exact hd)
    obtain ⟨analysis, v⟩ := q
    cases analysis with
    | noNan => exact noNan_of_operands (henv.ops v o hop) (rule_noNan hop ▸ hrule) hds
    | finite =>
      exact finite_of_operands (henv.ops v o hop) (hok env henv v o hop) haccepted (rule_finite_eq hop ▸ hrule) hds
  | @bothFinite q lhs rhs hrule hlhs hrhs ihl ihr =>
    obtain ⟨o, hop⟩ := exists_definingOp haccepted
    obtain ⟨analysis, v⟩ := q
    cases analysis with
    | noNan =>
      have hne : ∀ {d}, (env d).All (· = .finite) → (env d).All (· ≠ .nan) := fun hd idx hidx => by
        rw [hd idx hidx]
        nofun
      exact noNan_of_unlessFinite (henv.ops v o hop) (hok env henv v o hop) haccepted (rule_noNan hop ▸ hrule)
        (hne (ihl hlhs)) (hne (ihr hrhs))
    | finite =>
      obtain hfinite | hfinite | ⟨ds, hfinite⟩ := rule_finite (p := p) (.finite, v) rfl <;>
        cases hfinite.symm.trans hrule
  | @notFinite q lhs rhs hrule hall ih =>
    obtain ⟨o, hop⟩ := exists_definingOp haccepted
    have hds : ∀ d ∈ [lhs, rhs], (env d).All q.1.Excludes := fun d hd =>
      all_of_needs henv (fun d hd => ih d hd (hall d hd)) (by rw [hrule]; exact hd)
    obtain ⟨analysis, v⟩ := q
    cases analysis with
    | noNan =>
      exact noNan_of_unlessFinite (henv.ops v o hop) (hok env henv v o hop) haccepted (rule_noNan hop ▸ hrule)
        (hds lhs mem_cons_self) (hds rhs (mem_cons_of_mem _ mem_cons_self))
    | finite =>
      obtain hfinite | hfinite | ⟨ds, hfinite⟩ := rule_finite (p := p) (.finite, v) rfl <;>
        cases hfinite.symm.trans hrule
  | @ifFinite q ds hrule hfinite hall ihfinite ih =>
    obtain ⟨o, hop⟩ := exists_definingOp haccepted
    obtain ⟨analysis, v⟩ := q
    cases analysis with
    | noNan =>
      exact noNan_of_ifFinite (henv.ops v o hop) (rule_noNan hop ▸ hrule) fun d hd => ihfinite d hd (hfinite d hd)
    | finite =>
      obtain hfinite | hfinite | ⟨ds, hfinite⟩ := rule_finite (p := p) (.finite, v) rfl <;>
        cases hfinite.symm.trans hrule

/-- What has to hold for all that is let through to hold. -/
theorem operandsOk_of_holds (h : ∀ q, p.Accepted q → p.Holds q) : p.OperandsOk := by
  intro env henv v o hop
  have hcomputes := henv.ops v o hop
  have hfinite : p.Accepted (.finite, v) → (env v).All fun x => ¬x.IsInfinite := fun haccepted idx hidx hinf => by
    have hclass : (env v).get idx = .finite := h _ haccepted env henv idx hidx
    rw [hclass] at hinf
    exact hinf.elim nofun nofun
  have hguaranteed : p.finiteRule v (p.op o) = .guaranteed → (env v).All (· = .finite) := fun hrule =>
    h _ (.guaranteed ((rule_finite_eq hop).trans hrule)) env henv
  have hnan : p.Accepted (.noNan, v) → (env v).All (· ≠ .nan) := fun haccepted => h _ haccepted env henv
  cases hop' : p.op o with
  | iota shape dim =>
    exact hfinite (.guaranteed (by rw [rule_finite_eq hop, hop']; rfl))
  | unary f operand =>
    rw [hop'] at hcomputes hguaranteed
    obtain ⟨hshape, hget⟩ := hcomputes
    cases f with
    | exp | convert => exact hfinite
    | tanh | logistic =>
      intro idx hidx heq
      have hclass := hget idx (hshape ▸ hidx)
      rw [heq, hguaranteed rfl idx (hshape ▸ hidx)] at hclass
      cases mem_singleton.mp hclass
    | sine | cosine =>
      intro idx hidx
      have hclass := hget idx (hshape ▸ hidx)
      rw [hguaranteed rfl idx (hshape ▸ hidx)] at hclass
      cases hx : (env operand).get idx with
      | finite => rfl
      | _ =>
        rw [hx] at hclass
        cases mem_singleton.mp hclass
    | _ => trivial
  | binary g lhs rhs =>
    rw [hop'] at hcomputes
    obtain ⟨-, -, hget⟩ := hcomputes
    cases g with
    | add =>
      exact ⟨hfinite, fun haccepted idx hidx hopposite =>
        hnan haccepted idx hidx (nan_of_opposite hopposite (hget idx hidx))⟩
    | subtract =>
      refine ⟨hfinite, fun haccepted idx hidx hsame => hnan haccepted idx hidx (nan_of_opposite ?_ (hget idx hidx))⟩
      exact ⟨hsame.1, congrArg ValueClass.neg hsame.2⟩
    | mul => exact hfinite
    | _ => trivial
  | _ => trivial

/-- An infinity from which itself is taken. -/
def difference : Program (Fin 2) (Fin 2) where
  definingOp v := some v
  resultNumber _ := 0
  op o := if o = 0 then .constant (splat [] .posInf) else .binary .subtract 0 0
  isInteger _ := false
  acyclic := by
    refine Subrelation.wf (r := (· < ·)) (fun {d v} h => ?_) wellFounded_lt
    obtain ⟨o, hop, hd⟩ := h
    cases hop
    by_cases hv : v = 0
    · rw [if_pos hv] at hd
      cases hd
    · rw [if_neg hv] at hd
      have hd : d = 0 := by simpa [Op.operands] using hd
      rw [hd]
      exact Fin.pos_iff_ne_zero.mpr hv

end Program

end NoNanResultAnalysis

end EnzymeJax
