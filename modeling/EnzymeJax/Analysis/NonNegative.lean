import EnzymeJax.Analysis.GuaranteedResult
import EnzymeJax.Library.Elements
import Mathlib.Data.Int.Bitwise
import Mathlib.Data.Set.Card

/-!
# Non-negative results

The analysis of integer tensors whose elements are non-negative. Elements are integers without a width.
-/

namespace EnzymeJax.NonNegativeResultAnalysis

open Tensor GuaranteedResultAnalysis Option
open List hiding zipWith

/-- The operations that the analysis tells apart, and any other, by what it computes. -/
inductive Op (V : Type*)
  | constant (value : Tensor Int)
  | iota (shape : List Nat) (dim : Nat)
  | abs (operand : V)
  | not (operand : V)
  | and (lhs rhs : V)
  | or (lhs rhs : V)
  | xor (lhs rhs : V)
  | max (lhs rhs : V)
  | min (lhs rhs : V)
  | add (lhs rhs : V)
  | mul (lhs rhs : V)
  | clamp (min operand max : V)
  | concatenate (dim : Nat) (inputs : List V)
  | reshape (shape : List Nat) (operand : V)
  | transpose (perm : List Nat) (operand : V)
  | slice (dims : List SliceDim) (operand : V)
  | broadcastInDim (dims shape : List Nat) (operand : V)
  | select (pred onTrue onFalse : V)
  | dynamicSlice (operand : V) (starts : List V) (sizes : List Nat)
  | dynamicUpdateSlice (operand update : V) (starts : List V)
  | other (operands : List V) (compute : List (Tensor Int) → List (Tensor Int))

namespace Op

variable {V : Type*}

def operands : Op V → List V
  | constant _ => []
  | iota _ _ => []
  | abs operand => [operand]
  | not operand => [operand]
  | and lhs rhs => [lhs, rhs]
  | or lhs rhs => [lhs, rhs]
  | xor lhs rhs => [lhs, rhs]
  | max lhs rhs => [lhs, rhs]
  | min lhs rhs => [lhs, rhs]
  | add lhs rhs => [lhs, rhs]
  | mul lhs rhs => [lhs, rhs]
  | clamp lo operand hi => [lo, operand, hi]
  | concatenate _ inputs => inputs
  | reshape _ operand => [operand]
  | transpose _ operand => [operand]
  | slice _ operand => [operand]
  | broadcastInDim _ _ operand => [operand]
  | select pred onTrue onFalse => [pred, onTrue, onFalse]
  | dynamicSlice operand starts _ => operand :: starts
  | dynamicUpdateSlice operand update starts => operand :: update :: starts
  | other operands _ => operands

/-- A scalar stands for a tensor of any shape. -/
def spread (shape : List Nat) (t : Tensor Int) : Option (Tensor Int) :=
  if t.shape = shape then some t
  else if t.shape = [] then some (splat shape (t.get []))
  else none

/-- The result with the number `n`. All but other operations have one result. -/
def eval (env : V → Tensor Int) (n : Nat) : Op V → Option (Tensor Int)
  | constant value => some value
  | iota shape dim => some ⟨shape, fun idx => coord idx dim⟩
  | abs operand => some ((env operand).map (|·|))
  | not operand => some ((env operand).map Int.lnot)
  | and lhs rhs => zipWith Int.land (env lhs) (env rhs)
  | or lhs rhs => zipWith Int.lor (env lhs) (env rhs)
  | xor lhs rhs => zipWith Int.xor (env lhs) (env rhs)
  | max lhs rhs => zipWith Max.max (env lhs) (env rhs)
  | min lhs rhs => zipWith Min.min (env lhs) (env rhs)
  | add lhs rhs => zipWith (· + ·) (env lhs) (env rhs)
  | mul lhs rhs => zipWith (· * ·) (env lhs) (env rhs)
  | clamp lo operand hi =>
    (spread (env operand).shape (env lo)).bind fun lo =>
      (spread (env operand).shape (env hi)).map fun hi =>
        ⟨(env operand).shape, fun idx =>
          Min.min (Max.max ((env operand).get idx) (lo.get idx)) (hi.get idx)⟩
  | concatenate dim inputs => Tensor.concatenate dim (inputs.map env)
  | reshape shape operand => Tensor.reshape shape (env operand)
  | transpose perm operand => Tensor.transpose perm (env operand)
  | slice dims operand => Tensor.slice dims (env operand)
  | broadcastInDim dims shape operand => Tensor.broadcastInDim (env operand) dims shape
  | select pred onTrue onFalse =>
    if (env onFalse).shape = (env onTrue).shape then
      (spread (env onTrue).shape (env pred)).map fun mask =>
        ⟨(env onTrue).shape, fun idx =>
          if mask.get idx ≠ 0 then (env onTrue).get idx else (env onFalse).get idx⟩
    else none
  | dynamicSlice operand starts sizes =>
    Tensor.dynamicSlice (starts.map fun start => (env start).get []) sizes (env operand)
  | dynamicUpdateSlice operand update starts =>
    Tensor.dynamicUpdateSlice (starts.map fun start => (env start).get []) (env update) (env operand)
  | other operands compute => (compute (operands.map env))[n]?

end Op

/-- The operations of a program and their values. A block argument has no defining operation. -/
structure Program (V O : Type*) where
  definingOp : V → Option O
  resultNumber : V → Nat
  op : O → Op V
  acyclic : WellFounded fun d v => ∃ o, definingOp v = some o ∧ d ∈ (op o).operands

namespace Program

variable {V O : Type*} (p : Program V O)

/-- The values of a run, with those of the block arguments as they may be. -/
def Computes (env : V → Tensor Int) : Prop :=
  ∀ v o, p.definingOp v = some o → (p.op o).eval env (p.resultNumber v) = some (env v)

def NonNegative (v : V) : Prop := ∀ env, p.Computes env → (env v).All (0 ≤ ·)

def hasOp (v : V) : Bool := (p.definingOp v).isSome

/-! ### The analysis -/

def constantIntCheck (t : Tensor Int) : Bool := decide (∀ idx ∈ indices t.shape, 0 ≤ t.get idx)

theorem constantIntCheck_iff (t : Tensor Int) : constantIntCheck t = true ↔ t.All (0 ≤ ·) :=
  decide_eq_true_iff

/-- What there is to do for a value. -/
inductive Rule (V : Type*)
  | notGuaranteed
  | guaranteed
  | max (lhs rhs : V)
  | operand (operand : V)
  | operands (operands : List V)

variable [DecidableEq O]

def rule (v : V) : Rule V :=
  match p.definingOp v with
  | none => .notGuaranteed
  | some o => match p.op o with
    | .constant value => if constantIntCheck value then .guaranteed else .notGuaranteed
    | .abs _ => .guaranteed
    | .iota _ _ => .guaranteed
    | .and _ _ => .guaranteed
    | .or _ _ => .guaranteed
    | .xor _ _ => .guaranteed
    | .not _ => .guaranteed
    | .max lhs rhs => .max lhs rhs
    | .mul lhs rhs =>
      if p.definingOp lhs = p.definingOp rhs then .guaranteed else .operands [lhs, rhs]
    | .clamp min _ _ => .operand min
    | .min lhs rhs => .operands [lhs, rhs]
    | .add lhs rhs => .operands [lhs, rhs]
    | .concatenate _ inputs => .operands inputs
    | .reshape _ operand => .operands [operand]
    | .transpose _ operand => .operands [operand]
    | .slice _ operand => .operands [operand]
    | .broadcastInDim _ _ operand => .operands [operand]
    | .select _ onTrue onFalse => .operands [onTrue, onFalse]
    | .dynamicSlice operand _ _ => .operands [operand]
    | .dynamicUpdateSlice operand update _ => .operands [operand, update]
    | .other _ _ => .notGuaranteed

/-- An operand that decides, from the cache if it is there. -/
def checkOperand (valueCache : V → Option Bool) (operand : V) : GuaranteedResultAnalysis.State V :=
  match valueCache operand with
  | some guaranteed => lookup guaranteed
  | none => .pending [operand]

variable [DecidableEq V]

/-- Of a maximum the second operand is asked for by a query of its own. -/
def localGuaranteed (fuel : Nat) : Nat → GuaranteedResultAnalysis V → V →
    Option (GuaranteedResultAnalysis.State V × GuaranteedResultAnalysis V)
  | 0, _, _ => none
  | depth + 1, a, v =>
    match p.rule v with
    | .notGuaranteed => some (.notGuaranteed, a)
    | .guaranteed => some (.guaranteed, a)
    | .max lhs rhs =>
      (GuaranteedResultAnalysis.guaranteed p.hasOp (localGuaranteed fuel depth) fuel a rhs).map
        fun (guaranteed, a) =>
          if guaranteed then (.guaranteed, a) else (checkOperand a.valueCache lhs, a)
    | .operand operand => some (checkOperand a.valueCache operand, a)
    | .operands operands => some (recursivelyCheckOperands a.valueCache (fun _ => false) operands, a)

def guaranteed (fuel : Nat) (a : GuaranteedResultAnalysis V) (v : V) :
    Option (Bool × GuaranteedResultAnalysis V) :=
  GuaranteedResultAnalysis.guaranteed p.hasOp (p.localGuaranteed fuel fuel) fuel a v

/-- What is known after some queries. An analysis may be a new one, that finds the attributes of those before. -/
inductive Known (fuel : Nat) : GuaranteedResultAnalysis V → Prop
  | start : Known fuel ⟨fun _ => none, fun _ => none⟩
  | query {a a' : GuaranteedResultAnalysis V} {v : V} {guaranteed' : Bool} (h : Known fuel a)
      (hquery : p.guaranteed fuel a v = some (guaranteed', a')) : Known fuel a'
  | renew {a : GuaranteedResultAnalysis V} (h : Known fuel a) : Known fuel ⟨fun _ => none, a.attr⟩

/-! ### What is let through -/

omit [DecidableEq V] in
/-- The values that the rules let through. -/
inductive Accepted : V → Prop
  | guaranteed {v : V} (h : p.rule v = .guaranteed) : Accepted v
  | maxRight {v lhs rhs : V} (h : p.rule v = .max lhs rhs) (hrhs : Accepted rhs) : Accepted v
  | maxLeft {v lhs rhs : V} (h : p.rule v = .max lhs rhs) (hlhs : Accepted lhs) : Accepted v
  | operand {v operand : V} (h : p.rule v = .operand operand) (hoperand : Accepted operand) :
      Accepted v
  | operands {v : V} {operands : List V} (h : p.rule v = .operands operands)
      (hoperands : ∀ d ∈ operands, Accepted d) : Accepted v

section

omit [DecidableEq V]

variable {p}

theorem accepted_iff {v : V} : p.Accepted v ↔
    match p.rule v with
    | .notGuaranteed => False
    | .guaranteed => True
    | .max lhs rhs => p.Accepted rhs ∨ p.Accepted lhs
    | .operand operand => p.Accepted operand
    | .operands operands => ∀ d ∈ operands, p.Accepted d := by
  constructor
  · intro h
    cases h with
    | guaranteed h => rw [h]; trivial
    | maxRight h hrhs => rw [h]; exact .inl hrhs
    | maxLeft h hlhs => rw [h]; exact .inr hlhs
    | operand h hoperand => rw [h]; exact hoperand
    | operands h hoperands => rw [h]; exact hoperands
  · intro h
    cases hrule : p.rule v with
    | notGuaranteed => rw [hrule] at h; exact h.elim
    | guaranteed => exact .guaranteed hrule
    | max lhs rhs =>
      rw [hrule] at h
      exact h.elim (.maxRight hrule) (.maxLeft hrule)
    | operand operand => rw [hrule] at h; exact .operand hrule h
    | operands operands => rw [hrule] at h; exact .operands hrule h

def Rule.needs : Rule V → List V
  | notGuaranteed => []
  | guaranteed => []
  | max lhs rhs => [lhs, rhs]
  | operand d => [d]
  | operands ds => ds

/-- A value is an operand of the operation that another is a result of. -/
def Operand (p : Program V O) (d v : V) : Prop :=
  ∃ o, p.definingOp v = some o ∧ d ∈ (p.op o).operands

theorem operand_of_needs {v d : V} (h : d ∈ (p.rule v).needs) : p.Operand d v := by
  rw [rule] at h
  cases hop : p.definingOp v with
  | none =>
    rw [hop] at h
    cases h
  | some o =>
    rw [hop] at h
    refine ⟨o, hop, ?_⟩
    dsimp only at h
    cases ho : p.op o with
    | constant value =>
      rw [ho] at h
      dsimp only at h
      split at h
      · cases h
      · cases h
    | mul lhs rhs =>
      rw [ho] at h
      dsimp only at h
      split at h
      · cases h
      · exact h
    | clamp lo operand hi =>
      rw [ho] at h
      exact mem_singleton.mp h ▸ mem_cons_self
    | select pred onTrue onFalse =>
      rw [ho] at h
      exact mem_cons_of_mem _ h
    | dynamicSlice operand starts sizes =>
      rw [ho] at h
      exact mem_singleton.mp h ▸ mem_cons_self
    | dynamicUpdateSlice operand update starts =>
      rw [ho] at h
      exact (prefix_append [operand, update] starts).subset h
    | max lhs rhs | min lhs rhs | add lhs rhs | concatenate dim inputs | reshape shape operand
    | transpose perm operand | slice dims operand | broadcastInDim dims shape operand => rw [ho] at h; exact h
    | iota shape dim | abs operand | not operand | and lhs rhs | or lhs rhs | xor lhs rhs
    | other operands compute => rw [ho] at h; cases h

/-- The number of values that one depends on. -/
noncomputable def height (p : Program V O) (v : V) : Nat :=
  {u | Relation.TransGen p.Operand u v}.ncard

omit [DecidableEq O] in
theorem height_lt [Finite V] {d v : V} (h : p.Operand d v) : p.height d < p.height v := by
  refine Set.ncard_lt_ncard ⟨fun u hu => hu.tail h, fun hsub => ?_⟩ (Set.toFinite _)
  have hself : Relation.TransGen p.Operand d d := hsub (.single h)
  exact (p.acyclic.transGen).irrefl.irrefl d hself

end

variable {p}

/-- A value is pending on operands that decide. -/
def meaning (p : Program V O) : Meaning V where
  Guaranteed := p.Accepted
  Pending v S := (∀ d ∈ S, p.Operand d v) ∧ (p.Accepted v ↔ ∀ d ∈ S, p.Accepted d)
  needs v := (p.rule v).needs
  pending_erase := by
    intro v S r ⟨hoperand, hiff⟩ hr
    refine ⟨fun d hd => hoperand d (Finset.mem_of_mem_erase hd), hiff.trans ⟨fun hall d hd => ?_, fun hall d hd => ?_⟩⟩
    · exact hall d (Finset.mem_of_mem_erase hd)
    · by_cases heq : d = r
      · exact heq ▸ hr
      · exact hall d (Finset.mem_erase.mpr ⟨heq, hd⟩)
  of_pending := by
    intro v S d ⟨_, hiff⟩ hd hv
    exact hiff.mp hv d hd
  of_closed := by
    intro X hclosed v
    induction v using p.acyclic.induction with
    | _ v ih =>
      intro hv
      obtain ⟨S, ⟨hoperand, hiff⟩, hS⟩ := hclosed v hv
      refine hiff.mpr fun d hd => ?_
      exact (hS d hd).elim (ih d (hoperand d hd)) id

variable {a : GuaranteedResultAnalysis V}

theorem checkOperand_ok (ha : p.meaning.Correct a) {v d : V} (hneeds : d ∈ (p.rule v).needs)
    (hiff : p.Accepted v ↔ p.Accepted d) : p.meaning.StateOk v (checkOperand a.valueCache d) := by
  rw [checkOperand]
  cases hcache : a.valueCache d with
  | some guaranteed =>
    have hd : guaranteed = true ↔ p.Accepted d := ha.cache d guaranteed hcache
    exact Meaning.lookup_ok (hd.trans hiff.symm)
  | none =>
    refine ⟨cons_ne_nil d [], singleton_sublist.mpr hneeds, fun u hu => ?_, ?_⟩
    · obtain rfl := mem_singleton.mp (mem_toFinset.mp hu)
      exact operand_of_needs hneeds
    · simpa using hiff

theorem recursivelyCheckOperands_ok (ha : p.meaning.Correct a) {v : V}
    {operands : List V} (hrule : p.rule v = .operands operands) :
    p.meaning.StateOk v (recursivelyCheckOperands a.valueCache (fun _ => false) operands) := by
  have hneeds : (p.rule v).needs = operands := by rw [hrule]; rfl
  change (Meaning.ofAccepted p.Accepted p.Operand (fun v => (p.rule v).needs) p.acyclic).StateOk v _
  refine Meaning.recursivelyCheckOperands_ok ha ?_ (fun d => operand_of_needs) ?_
  · simpa using hneeds
  · rw [accepted_iff, hrule]
    rfl

section

variable [Fintype V]

/-- The fuel that a query needs, and that its nested queries do. -/
noncomputable def bound (p : Program V O) : Nat :=
  2 * ∑ v, (p.rule v).needs.length + 5 + ∑ v, (p.height v + 1)

open Classical in
theorem localGuaranteed_ok {fuel : Nat} (hfuel : p.bound ≤ fuel) (depth : Nat) :
    p.meaning.LocalOk (p.localGuaranteed fuel depth)
      (Finset.univ.filter fun v => p.height v < depth) := by
  induction depth with
  | zero =>
    intro a _ v hv
    exact absurd (Finset.mem_filter.mp hv).2 (Nat.not_lt_zero _)
  | succ depth ih =>
    intro a ha v hv
    have hheight := (Finset.mem_filter.mp hv).2
    rw [localGuaranteed]
    cases hrule : p.rule v with
    | notGuaranteed =>
      refine ⟨_, a, rfl, fun haccepted => ?_, ha, .refl a⟩
      have haccepted := accepted_iff.mp haccepted
      rw [hrule] at haccepted
      exact haccepted
    | guaranteed => exact ⟨_, a, rfl, .guaranteed hrule, ha, .refl a⟩
    | operand operand =>
      have hiff : p.Accepted v ↔ p.Accepted operand := by rw [accepted_iff, hrule]
      refine ⟨_, a, rfl, checkOperand_ok ha ?_ hiff, ha, .refl a⟩
      rw [hrule]
      exact mem_cons_self
    | operands operands => exact ⟨_, a, rfl, recursivelyCheckOperands_ok ha hrule, ha, .refl a⟩
    | max lhs rhs =>
      have hrhs : p.height rhs < depth := by
        have hlt := height_lt (p := p) (d := rhs) (v := v)
          (operand_of_needs (by rw [hrule]; exact mem_cons_of_mem _ mem_cons_self))
        omega
      have hsum : ∑ u ∈ Finset.univ.filter (fun u => p.height u < depth), (p.rule u).needs.length ≤
          ∑ u, (p.rule u).needs.length :=
        Finset.sum_le_sum_of_subset (Finset.filter_subset _ _)
      have hbound : 2 * ∑ u ∈ Finset.univ.filter (fun u => p.height u < depth),
          (p.meaning.needs u).length + 5 ≤ fuel := by
        change 2 * ∑ u ∈ _, (p.rule u).needs.length + 5 ≤ fuel
        rw [bound] at hfuel
        omega
      obtain ⟨guaranteed', a', hquery, hguaranteed, hcorrect, hkeeps⟩ :=
        Meaning.guaranteed_spec p.hasOp ih (fun u hu d hd => Finset.mem_filter.mpr
          ⟨Finset.mem_univ d, (height_lt (operand_of_needs hd)).trans (Finset.mem_filter.mp hu).2⟩)
          ha (Finset.mem_filter.mpr ⟨Finset.mem_univ rhs, hrhs⟩) hbound
      dsimp only
      rw [hquery]
      have hiff : p.Accepted v ↔ p.Accepted rhs ∨ p.Accepted lhs := by rw [accepted_iff, hrule]
      cases guaranteed' with
      | true => exact ⟨_, a', rfl, hiff.mpr (.inl (hguaranteed.mp rfl)), hcorrect, hkeeps⟩
      | false =>
        have hnot : ¬p.Accepted rhs := fun h => Bool.false_ne_true (hguaranteed.mpr h)
        refine ⟨_, a', rfl, checkOperand_ok hcorrect ?_ (hiff.trans (or_iff_right hnot)), hcorrect, hkeeps⟩
        rw [hrule]
        exact mem_cons_self

/-- A query lets the values through that the rules do. -/
theorem guaranteed_spec {fuel : Nat} (hfuel : p.bound ≤ fuel) (ha : p.meaning.Correct a) (v : V) :
    ∃ guaranteed' a', p.guaranteed fuel a v = some (guaranteed', a') ∧
      (guaranteed' = true ↔ p.Accepted v) ∧ p.meaning.Correct a' := by
  classical
  have hheight : ∀ u, p.height u < fuel := by
    intro u
    have hle := Finset.single_le_sum (f := fun u => p.height u + 1) (fun _ _ => Nat.zero_le _)
      (Finset.mem_univ u)
    rw [bound] at hfuel
    omega
  have huniv : Finset.univ.filter (fun u => p.height u < fuel) = Finset.univ := by
    simp [hheight]
  have hlocal := localGuaranteed_ok hfuel fuel
  rw [huniv] at hlocal
  have hbound : 2 * ∑ u, (p.meaning.needs u).length + 5 ≤ fuel := by
    change 2 * ∑ u, (p.rule u).needs.length + 5 ≤ fuel
    rw [bound] at hfuel
    omega
  obtain ⟨guaranteed', a', hquery, hguaranteed, hcorrect, -⟩ :=
    Meaning.guaranteed_spec p.hasOp hlocal (fun _ _ d _ => Finset.mem_univ d) ha (Finset.mem_univ v)
      hbound
  exact ⟨guaranteed', a', hquery, hguaranteed, hcorrect⟩

theorem Known.correct {fuel : Nat} (hfuel : p.bound ≤ fuel) (h : p.Known fuel a) : p.meaning.Correct a := by
  induction h with
  | start => exact ⟨nofun, nofun⟩
  | @query a a' v guaranteed' _ hquery ih =>
    obtain ⟨guaranteed'', a'', hquery', -, hcorrect⟩ := guaranteed_spec hfuel ih v
    rw [hquery] at hquery'
    obtain ⟨-, rfl⟩ := Prod.mk.inj (some.inj hquery')
    exact hcorrect
  | renew _ ih => exact ⟨nofun, ih.attr⟩

end

/-! ### Signs -/

theorem land_nonneg_iff (m n : Int) : 0 ≤ Int.land m n ↔ 0 ≤ m ∨ 0 ≤ n := by
  cases m with
  | ofNat m =>
    cases n with
    | ofNat n | negSucc n => exact iff_of_true (Int.natCast_nonneg _) (.inl (Int.natCast_nonneg m))
  | negSucc m =>
    cases n with
    | ofNat n => exact iff_of_true (Int.natCast_nonneg _) (.inr (Int.natCast_nonneg n))
    | negSucc n =>
      refine iff_of_false (Int.not_le.mpr (Int.negSucc_lt_zero _)) fun h => ?_
      exact h.elim (Int.not_le.mpr (Int.negSucc_lt_zero m)) (Int.not_le.mpr (Int.negSucc_lt_zero n))

theorem lor_nonneg_iff (m n : Int) : 0 ≤ Int.lor m n ↔ 0 ≤ m ∧ 0 ≤ n := by
  cases m with
  | ofNat m =>
    cases n with
    | ofNat n =>
      exact iff_of_true (Int.natCast_nonneg _) ⟨Int.natCast_nonneg m, Int.natCast_nonneg n⟩
    | negSucc n =>
      refine iff_of_false (Int.not_le.mpr (Int.negSucc_lt_zero _)) fun h => ?_
      exact Int.not_le.mpr (Int.negSucc_lt_zero n) h.2
  | negSucc m =>
    refine iff_of_false ?_ fun h => Int.not_le.mpr (Int.negSucc_lt_zero m) h.1
    cases n with
    | ofNat n | negSucc n => exact Int.not_le.mpr (Int.negSucc_lt_zero _)

theorem xor_nonneg_iff (m n : Int) : 0 ≤ Int.xor m n ↔ (0 ≤ m ↔ 0 ≤ n) := by
  have hneg : ∀ k : Nat, ¬0 ≤ Int.negSucc k := fun k => Int.not_le.mpr (Int.negSucc_lt_zero k)
  cases m with
  | ofNat m =>
    cases n with
    | ofNat n =>
      exact iff_of_true (Int.natCast_nonneg _)
        (iff_of_true (Int.natCast_nonneg m) (Int.natCast_nonneg n))
    | negSucc n =>
      exact iff_of_false (hneg _) fun h => hneg n (h.mp (Int.natCast_nonneg m))
  | negSucc m =>
    cases n with
    | ofNat n => exact iff_of_false (hneg _) fun h => hneg m (h.mpr (Int.natCast_nonneg n))
    | negSucc n => exact iff_of_true (Int.natCast_nonneg _) (iff_of_false (hneg m) (hneg n))

theorem lnot_nonneg_iff (m : Int) : 0 ≤ Int.lnot m ↔ m < 0 := by
  cases m with
  | ofNat m =>
    exact iff_of_false (Int.not_le.mpr (Int.negSucc_lt_zero m)) (Int.not_lt.mpr (Int.natCast_nonneg m))
  | negSucc m => exact iff_of_true (Int.natCast_nonneg m) (Int.negSucc_lt_zero m)

variable {f : Int → Int → Int} {x y t : Tensor Int}

theorem all_zipWith_iff (h : zipWith f x y = some t) :
    t.All (0 ≤ ·) ↔ ∀ idx ∈ indices x.shape, 0 ≤ f (x.get idx) (y.get idx) := by
  rw [zipWith] at h
  split at h
  · cases h
    rfl
  · cases h

theorem draws_zipWith (h : zipWith f x y = some t) (hf : ∀ m n, 0 ≤ m → 0 ≤ n → 0 ≤ f m n)
    (hx : x.All (0 ≤ ·)) (hy : y.All (0 ≤ ·)) : t.All (0 ≤ ·) := by
  refine (all_zipWith_iff h).mpr fun idx hidx => hf _ _ (hx idx hidx) (hy idx ?_)
  rw [zipWith] at h
  split at h
  · rename_i hshape
    rwa [← hshape]
  · cases h

theorem draws_spread {shape : List Nat} (h : Op.spread shape x = some t) : t.shape = shape ∧ Draws [x] t := by
  rw [Op.spread] at h
  split at h
  · rename_i hshape
    cases h
    exact ⟨hshape, draws_of_source id (fun _ _ => rfl) fun _ hidx => hidx⟩
  · split at h
    · rename_i hscalar
      cases h
      refine ⟨rfl, draws_of_source (fun _ => []) (fun _ _ => rfl) fun _ _ => ?_⟩
      rw [hscalar]
      exact mem_indices_nil.mpr rfl
    · cases h

/-! ### When the analysis is right -/

/-- The elements of an operation whose result is let through whatever they are. A clamp is let through
with its lower bound. -/
def OpOk (p : Program V O) (env : V → Tensor Int) : Op V → Prop
  | .and lhs rhs => ∀ idx ∈ indices (env lhs).shape, 0 ≤ (env lhs).get idx ∨ 0 ≤ (env rhs).get idx
  | .or lhs rhs => ∀ idx ∈ indices (env lhs).shape, 0 ≤ (env lhs).get idx ∧ 0 ≤ (env rhs).get idx
  | .xor lhs rhs =>
    ∀ idx ∈ indices (env lhs).shape, (0 ≤ (env lhs).get idx ↔ 0 ≤ (env rhs).get idx)
  | .not operand => ∀ idx ∈ indices (env operand).shape, (env operand).get idx < 0
  | .mul lhs rhs => p.definingOp lhs = p.definingOp rhs →
    ∀ idx ∈ indices (env lhs).shape, 0 ≤ (env lhs).get idx * (env rhs).get idx
  | .clamp lo operand hi => p.Accepted lo →
    ∀ bound, Op.spread (env operand).shape (env hi) = some bound → bound.All (0 ≤ ·)
  | _ => True

def OperandsOk (p : Program V O) : Prop :=
  ∀ env, p.Computes env → ∀ v o, p.definingOp v = some o → p.OpOk env (p.op o)

section

omit [DecidableEq V]

variable {env : V → Tensor Int} {v : V} {o : O}

theorem opOk_iff_of_guaranteed (henv : p.Computes env) (hop : p.definingOp v = some o)
    (hrule : p.rule v = .guaranteed) : (env v).All (0 ≤ ·) ↔ p.OpOk env (p.op o) := by
  have heval := henv v o hop
  simp only [rule, hop] at hrule
  cases ho : p.op o with
  | constant value =>
    simp only [ho] at hrule
    split at hrule
    · rename_i hcheck
      rw [ho] at heval
      rw [← some.inj heval]
      exact iff_of_true ((constantIntCheck_iff value).mp hcheck) trivial
    · cases hrule
  | iota shape dim =>
    rw [ho] at heval
    rw [← some.inj heval]
    exact iff_of_true (fun idx _ => Int.natCast_nonneg _) trivial
  | abs operand =>
    rw [ho] at heval
    rw [← some.inj heval]
    exact iff_of_true (fun idx _ => abs_nonneg _) trivial
  | not operand =>
    rw [ho] at heval
    rw [← some.inj heval]
    exact forall₂_congr fun idx _ => lnot_nonneg_iff _
  | and lhs rhs =>
    rw [ho] at heval
    exact (all_zipWith_iff heval).trans (forall₂_congr fun idx _ => land_nonneg_iff _ _)
  | or lhs rhs =>
    rw [ho] at heval
    exact (all_zipWith_iff heval).trans (forall₂_congr fun idx _ => lor_nonneg_iff _ _)
  | xor lhs rhs =>
    rw [ho] at heval
    exact (all_zipWith_iff heval).trans (forall₂_congr fun idx _ => xor_nonneg_iff _ _)
  | mul lhs rhs =>
    rw [ho] at heval
    simp only [ho] at hrule
    split at hrule
    · rename_i hsame
      refine (all_zipWith_iff heval).trans ⟨fun h _ => h, fun h => h hsame⟩
    · cases hrule
  | max lhs rhs | min lhs rhs | add lhs rhs | clamp lo operand hi | concatenate dim inputs
  | reshape shape operand | transpose perm operand | slice dims operand | broadcastInDim dims shape operand
  | select pred onTrue onFalse | dynamicSlice operand starts sizes | dynamicUpdateSlice operand update starts
  | other operands compute => simp [ho] at hrule

theorem all_of_operands (henv : p.Computes env) (hop : p.definingOp v = some o) {operands : List V}
    (hrule : p.rule v = .operands operands) (hall : ∀ d ∈ operands, (env d).All (0 ≤ ·)) : (env v).All (0 ≤ ·) := by
  have heval := henv v o hop
  simp only [rule, hop] at hrule
  cases ho : p.op o with
  | min lhs rhs =>
    rw [ho] at heval
    obtain rfl := Rule.operands.inj (by simpa [ho] using hrule)
    exact draws_zipWith heval (fun _ _ => le_min) (hall lhs (by simp)) (hall rhs (by simp))
  | add lhs rhs =>
    rw [ho] at heval
    obtain rfl := Rule.operands.inj (by simpa [ho] using hrule)
    exact draws_zipWith heval (fun _ _ => add_nonneg) (hall lhs (by simp)) (hall rhs (by simp))
  | mul lhs rhs =>
    rw [ho] at heval
    simp only [ho] at hrule
    split at hrule
    · cases hrule
    · obtain rfl := Rule.operands.inj hrule
      exact draws_zipWith heval (fun _ _ => mul_nonneg) (hall lhs (by simp)) (hall rhs (by simp))
  | concatenate dim inputs =>
    rw [ho] at heval
    obtain rfl := Rule.operands.inj (by simpa [ho] using hrule)
    refine (draws_concatenate heval).all fun x hx => ?_
    obtain ⟨d, hd, rfl⟩ := mem_map.mp hx
    exact hall d hd
  | reshape shape operand =>
    rw [ho] at heval
    obtain rfl := Rule.operands.inj (by simpa [ho] using hrule)
    exact (draws_reshape heval).all (by simpa using hall)
  | transpose perm operand =>
    rw [ho] at heval
    obtain rfl := Rule.operands.inj (by simpa [ho] using hrule)
    exact (draws_transpose heval).all (by simpa using hall)
  | slice dims operand =>
    rw [ho] at heval
    obtain rfl := Rule.operands.inj (by simpa [ho] using hrule)
    exact (draws_slice heval).all (by simpa using hall)
  | broadcastInDim dims shape operand =>
    rw [ho] at heval
    obtain rfl := Rule.operands.inj (by simpa [ho] using hrule)
    exact (draws_broadcastInDim heval).all (by simpa using hall)
  | select pred onTrue onFalse =>
    rw [ho] at heval
    obtain rfl := Rule.operands.inj (by simpa [ho] using hrule)
    rw [Op.eval] at heval
    split at heval
    · rename_i hshape
      obtain ⟨mask, -, heq⟩ := map_eq_some_iff.mp heval
      rw [← heq]
      intro idx hidx
      dsimp only
      split
      · exact hall onTrue (by simp) idx hidx
      · exact hall onFalse (by simp) idx (hshape ▸ hidx)
    · cases heval
  | dynamicSlice operand starts sizes =>
    rw [ho] at heval
    obtain rfl := Rule.operands.inj (by simpa [ho] using hrule)
    exact (draws_dynamicSlice heval).all (by simpa using hall)
  | dynamicUpdateSlice operand update starts =>
    rw [ho] at heval
    obtain rfl := Rule.operands.inj (by simpa [ho] using hrule)
    exact (draws_dynamicUpdateSlice heval).all (by simpa using hall)
  | constant value =>
    simp only [ho] at hrule
    split at hrule
    · cases hrule
    · cases hrule
  | iota shape dim | abs operand | not operand | and lhs rhs | or lhs rhs | xor lhs rhs | max lhs rhs
  | clamp lo operand hi | other operands compute => simp [ho] at hrule

theorem rule_max_iff (hop : p.definingOp v = some o) {lhs rhs : V} :
    p.rule v = .max lhs rhs ↔ p.op o = .max lhs rhs := by
  simp only [rule, hop]
  cases p.op o with
  | max lhs' rhs' => simp
  | constant value | mul lhs' rhs' => dsimp only; split <;> simp
  | _ => simp

theorem rule_operand_iff (hop : p.definingOp v = some o) {d : V} :
    p.rule v = .operand d ↔ ∃ operand hi, p.op o = .clamp d operand hi := by
  simp only [rule, hop]
  cases p.op o with
  | clamp lo operand hi => simp
  | constant value | mul lhs' rhs' => dsimp only; split <;> simp
  | _ => simp

theorem exists_definingOp (h : p.Accepted v) : ∃ o, p.definingOp v = some o := by
  cases hop : p.definingOp v with
  | some o => exact ⟨o, rfl⟩
  | none =>
    have hfalse := accepted_iff.mp h
    simp only [rule, hop] at hfalse

theorem all_max {lhs rhs : V} (heval : Op.eval env 0 (.max lhs rhs) = some (env v))
    (h : (env rhs).All (0 ≤ ·) ∨ (env lhs).All (0 ≤ ·)) : (env v).All (0 ≤ ·) := by
  have hshape : (env lhs).shape = (env rhs).shape := by
    rw [Op.eval, zipWith] at heval
    split at heval
    · assumption
    · cases heval
  refine (all_zipWith_iff heval).mpr fun idx hidx => ?_
  obtain hrhs | hlhs := h
  · exact (hrhs idx (hshape ▸ hidx)).trans (le_max_right _ _)
  · exact (hlhs idx hidx).trans (le_max_left _ _)

/-- With a lower bound that is non-negative a clamp is as non-negative as its upper bound. -/
theorem all_clamp_iff {lo operand hi : V}
    (heval : Op.eval env 0 (.clamp lo operand hi) = some (env v)) (hlo : (env lo).All (0 ≤ ·)) :
    (env v).All (0 ≤ ·) ↔ ∀ bound, Op.spread (env operand).shape (env hi) = some bound → bound.All (0 ≤ ·) := by
  rw [Op.eval] at heval
  obtain ⟨low, hlow, heval⟩ := bind_eq_some_iff.mp heval
  obtain ⟨high, hhigh, heval⟩ := map_eq_some_iff.mp heval
  obtain ⟨hlowShape, hdraws⟩ := draws_spread hlow
  obtain ⟨hhighShape, -⟩ := draws_spread hhigh
  have hlow : low.All (0 ≤ ·) := hdraws.all (by simpa using hlo)
  rw [← heval]
  constructor
  · intro h bound hbound idx hidx
    cases hhigh.symm.trans hbound
    rw [hhighShape] at hidx
    exact (h idx hidx).trans (min_le_right _ _)
  · intro h idx hidx
    have hnonneg := hlow idx (hlowShape ▸ hidx)
    exact le_min (hnonneg.trans (le_max_right _ _)) (h high hhigh idx (hhighShape ▸ hidx))

theorem Accepted.nonNegative (hok : p.OperandsOk) (h : p.Accepted v) : p.NonNegative v := by
  intro env henv
  induction h with
  | @guaranteed v hrule =>
    obtain ⟨o, hop⟩ := exists_definingOp (.guaranteed hrule)
    exact (opOk_iff_of_guaranteed henv hop hrule).mpr (hok env henv v o hop)
  | @maxRight v lhs rhs hrule hrhs ih =>
    obtain ⟨o, hop⟩ := exists_definingOp (.maxRight hrule hrhs)
    have heval := henv v o hop
    rw [(rule_max_iff hop).mp hrule] at heval
    exact all_max heval (.inl ih)
  | @maxLeft v lhs rhs hrule hlhs ih =>
    obtain ⟨o, hop⟩ := exists_definingOp (.maxLeft hrule hlhs)
    have heval := henv v o hop
    rw [(rule_max_iff hop).mp hrule] at heval
    exact all_max heval (.inr ih)
  | @operand v d hrule hd ih =>
    obtain ⟨o, hop⟩ := exists_definingOp (.operand hrule hd)
    obtain ⟨operand, hi, ho⟩ := (rule_operand_iff hop).mp hrule
    have heval := henv v o hop
    have hok := hok env henv v o hop
    rw [ho] at heval hok
    exact (all_clamp_iff heval ih).mpr (hok hd)
  | @operands v operands hrule hall ih =>
    obtain ⟨o, hop⟩ := exists_definingOp (.operands hrule hall)
    exact all_of_operands henv hop hrule ih

theorem operandsOk_of_nonNegative (h : ∀ v, p.Accepted v → p.NonNegative v) : p.OperandsOk := by
  intro env henv v o hop
  have hguaranteed : p.rule v = .guaranteed → p.OpOk env (p.op o) := fun hrule =>
    (opOk_iff_of_guaranteed henv hop hrule).mp (h v (.guaranteed hrule) env henv)
  cases ho : p.op o with
  | not operand | and lhs rhs | or lhs rhs | xor lhs rhs => exact ho ▸ hguaranteed (by simp only [rule, hop, ho])
  | mul lhs rhs =>
    intro hsame
    have hok := hguaranteed (by simp only [rule, hop, ho, if_pos hsame])
    rw [ho] at hok
    exact hok hsame
  | clamp lo operand hi =>
    intro hlo
    have heval := henv v o hop
    rw [ho] at heval
    have hrule : p.rule v = .operand lo := (rule_operand_iff hop).mpr ⟨operand, hi, ho⟩
    exact (all_clamp_iff heval (h lo hlo env henv)).mp (h v (.operand hrule hlo) env henv)
  | _ => trivial

end

theorem three_neZero : NeZero 3 := ⟨by decide⟩

attribute [local instance] three_neZero

theorem product_acyclic : WellFounded fun d v : Fin 3 => ∃ o : Unit,
    (if v = 2 then some () else none) = some o ∧ d ∈ (Op.mul (0 : Fin 3) 1).operands := by
  refine Subrelation.wf (r := (· < ·)) (fun {d v} h => ?_) wellFounded_lt
  obtain ⟨o, hop, hd⟩ := h
  have hv : v = 2 := by
    by_contra hne
    rw [if_neg hne] at hop
    cases hop
  have hd : d = 0 ∨ d = 1 := by simpa [Op.operands] using hd
  subst hv
  obtain rfl | rfl := hd
  · decide
  · decide

/-- The product of two block arguments. Neither has a defining operation. -/
def product : Program (Fin 3) Unit where
  definingOp v := if v = 2 then some () else none
  resultNumber _ := 0
  op _ := .mul 0 1
  acyclic := product_acyclic

end Program

end EnzymeJax.NonNegativeResultAnalysis
