import EnzymeJax.Checkpointing.Mode
import EnzymeJax.Checkpointing.Schedule

/-!
# Binomial checkpointing of a while loop

`binomialCacheValues` runs the loop in `S` stretches and stores the carried values at the start of each, with
the number of iterations so far. The reverse sweep pops the top of this stack and, while that is not the
iteration to be reversed, stores it again and moves on by the binomial progress of what is left.
-/

namespace EnzymeJax

open List Option

def clampIndex (size : Nat) (index : Int) : Nat := min index.toNat (size - 1)

def getIndex {α : Type} (arr : List α) (index : Int) : Option α :=
  arr[clampIndex arr.length index]?

def setIndex {α : Type} (arr : List α) (index : Int) (val : α) : List α :=
  arr.set (clampIndex arr.length index) val

/-- What the augmented primal caches when the bounds are not constants. -/
structure DynamicBounds where
  numIters : Int
  start : Int
  step : Int

structure BinomialCaches (ρ σ : Type) where
  args : List σ
  outsideRefs : ρ
  bounds : Option DynamicBounds
  indexTensor : List Int

/-- The values the outer loop of the augmented primal carries. -/
structure BinomialForward (σ : Type) where
  args : σ
  argCaches : List σ
  stepInOuter : Int
  indexTensor : List Int

/-- The values the outer loop of the reverse sweep carries, the gradients apart. -/
structure BinomialStack (σ : Type) where
  sp : Int
  indexTensor : List Int
  argCaches : List σ

/-- The values the rematerialization loop carries. -/
structure Rematerialization (σ : Type) where
  ckptStep : Int
  capo : Int
  indexTensor : List Int
  args : σ
  cacheArgs : List σ

/-- `(limit - start) / step`, the trip count of bounds that are not all constants. -/
def WhileLoopInfo.getNumIters (info : WhileLoopInfo) : Option Int :=
  if info.isConstant then info.getConstantNumIters
  else if info.step = 0 then none
  else some ((info.limit - info.start).tdiv info.step)

namespace WhileOp

variable {ρ σ γ : Type} (op : WhileOp ρ σ)

/-! ### The augmented primal -/

/-- One stretch: store the carried values and the iteration, then run up to the next checkpoint. -/
def binomialOuterBody (S : Int) (refs : ρ) (outer : Int) (s : BinomialForward σ) :
    Option (BinomialForward σ) := do
  let numSteps := op.info.limit - s.stepInOuter
  let budget := S - outer
  let innerLimit ← binomialProgress numSteps budget
  let args ← Loop.forLoop 0 innerLimit
    (fun i args => some (op.body refs (op.info.start + op.info.step * (s.stepInOuter + i)) args))
    s.args
  some ⟨args, setIndex s.argCaches outer s.args, s.stepInOuter + innerLimit,
    setIndex s.indexTensor outer s.stepInOuter⟩

/-- The results that replace those of the loop, and the caches. `zero` is the null value the slots are made with. -/
def binomialCacheValues (S : Int) (zero : σ) (refs : ρ) (init : σ) :
    Option ((Int × σ) × BinomialCaches ρ σ) := do
  let bounds ← if op.info.isConstant then some none
    else op.info.getNumIters.map fun n => some ⟨n, op.info.start, op.info.step⟩
  let outer ← Loop.forLoop 0 S (op.binomialOuterBody S refs)
    ⟨init, List.replicate S.toNat zero, 0, List.replicate S.toNat 0⟩
  some ((op.info.limit, outer.args), ⟨outer.argCaches, refs, bounds, outer.indexTensor⟩)

/-! ### The reverse sweep -/

def rematCond (currentRevStep : Int) (s : Rematerialization σ) : Bool :=
  decide (s.ckptStep + 1 < currentRevStep)

/-- Store the checkpoint at the top and run on by the progress; the last stretch would end after
the iteration to be reversed and is one iteration shorter. -/
def rematBody (S startIV stepIV : Int) (refs : ρ) (currentRevStep : Int)
    (s : Rematerialization σ) : Option (Rematerialization σ) := do
  let remaining := currentRevStep - s.ckptStep
  let budget := S - s.capo
  let split ← binomialProgress remaining budget
  let rematUB := s.ckptStep + split - if s.ckptStep + split = currentRevStep then 1 else 0
  let args ← Loop.forLoop s.ckptStep rematUB
    (fun i args => some (op.body refs (startIV + stepIV * i) args)) s.args
  some ⟨s.ckptStep + split, s.capo + 1, setIndex s.indexTensor s.capo s.ckptStep, args,
    setIndex s.cacheArgs s.capo s.args⟩

/-- The first half of a reverse step: what the body's adjoint is handed, and the new stack. -/
def rematerialize (S startIV stepIV : Int) (refs : ρ) (fuel : Nat) (currentRevStep : Int)
    (s : BinomialStack σ) : Option ((Int × σ) × BinomialStack σ) := do
  let capo := s.sp - 1
  let args ← getIndex s.argCaches capo
  let ckptStep ← getIndex s.indexTensor capo
  let inner ← Loop.run (rematCond currentRevStep) (op.rematBody S startIV stepIV refs currentRevStep)
    fuel ⟨ckptStep, capo, s.indexTensor, args, s.argCaches⟩
  some ((startIV + stepIV * (currentRevStep - 1), inner.args), ⟨inner.capo, inner.indexTensor, inner.cacheArgs⟩)

/-- The trip count, start and step the reverse sweep goes by. -/
def reverseBounds (caches : BinomialCaches ρ σ) : Option DynamicBounds :=
  match caches.bounds with
  | some bounds => some bounds
  | none => op.info.getConstantNumIters.map (⟨·, op.info.start, op.info.step⟩)

def binomialRevBody (S : Int) (bounds : DynamicBounds) (adj : ρ → Int → σ → γ → γ) (refs : ρ)
    (fuel : Nat) (outer : Int) (s : BinomialStack σ × γ) : Option (BinomialStack σ × γ) := do
  let currentRevStep := bounds.numIters - outer
  let (handed, stack) ←
    op.rematerialize S bounds.start bounds.step refs fuel currentRevStep s.1
  some (stack, adj refs handed.1 handed.2 s.2)

/-- The reverse sweep; a budget of one or less is an error. -/
def reverseWithBinomialCheckpointing (S : Int) (adj : ρ → Int → σ → γ → γ) (fuel : Nat)
    (caches : BinomialCaches ρ σ) (grad : γ) : Option γ := do
  if S ≤ 1 then none else
  let bounds ← op.reverseBounds caches
  let (_, grad) ← Loop.forLoop 0 bounds.numIters
    (op.binomialRevBody S bounds adj caches.outsideRefs fuel)
    (⟨S, caches.indexTensor, caches.args⟩, grad)
  some grad

/-! ### What the pair is for -/

def recording : WhileOp ρ (σ × List Int) where
  info := op.info
  body refs iv s := (op.body refs iv s.1, s.2 ++ [iv])

/-- The stack at the start of the reverse step for iteration `k`. -/
structure StackSound (S : Int) (refs : ρ) (init : σ) (k : Nat) (s : BinomialStack σ) : Prop where
  sp_pos : 1 ≤ s.sp
  sp_le : s.sp ≤ S
  first : s.indexTensor[0]? = some 0
  holds : ∀ j : Nat, j < s.sp → ∃ i ≤ k, s.indexTensor[j]? = some (i : Int) ∧
    s.argCaches[j]? = some (op.entering refs init i).2
  increasing : ∀ j : Nat, j + 1 < s.sp → ∃ a b : Int,
    s.indexTensor[j]? = some a ∧ s.indexTensor[j + 1]? = some b ∧ a < b

/-- From stack `s` the reverse sweep finds a sound stack at each of the `n` iterations that are left,
last iteration first, and hands the adjoint what the iteration was entered with. -/
def Reverses (S : Int) (refs : ρ) (init : σ) : Nat → BinomialStack σ → Prop
  | 0, _ => True
  | k + 1, s => op.StackSound S refs init k s ∧ ∃ fuel s',
      op.rematerialize S op.info.start op.info.step refs fuel (k + 1) s =
        some (op.entering refs init k, s') ∧ Reverses S refs init k s'

/-- The augmented primal returns what a loop of `N` iterations returns, and leaves caches from which all of them are
reversed. -/
structure BinomialExact (S : Int) (zero : σ) (refs : ρ) (init : σ) (N : Nat) : Prop where
  executed : (op.recording.binomialCacheValues S (zero, []) refs (init, [])).map (·.1.2.2) =
    some ((List.range N).map fun k : Nat => op.info.start + k * op.info.step)
  reversed : ∃ caches, op.binomialCacheValues S zero refs init = some (op.entering refs init N, caches) ∧
      op.reverseBounds caches = some ⟨N, op.info.start, op.info.step⟩ ∧
      caches.outsideRefs = refs ∧
      op.Reverses S refs init N ⟨S, caches.indexTensor, caches.args⟩

end WhileOp

variable {α : Type} {arr : List α} {n N k i : Nat}

theorem setIndex_natCast {j : Nat} (hj : j < arr.length) (val : α) : setIndex arr j val = arr.set j val := by
  rw [setIndex, clampIndex, Int.toNat_natCast, Nat.min_eq_left (by omega)]

theorem getIndex_natCast {j : Nat} (hj : j < arr.length) : getIndex arr j = arr[j]? := by
  rw [getIndex, clampIndex, Int.toNat_natCast, Nat.min_eq_left (by omega)]

theorem progress_lt {s : Nat} (hn : 2 ≤ n) (hs : 0 < s) : progress n s < n := by
  rcases Nat.eq_or_lt_of_le hs with rfl | htwo
  · rw [progress_single]
    omega
  · by_cases hle : s ≤ n
    · have hbounds := progress_bounds htwo hle
      omega
    · rw [progress_of_lt htwo (by omega) (by omega)]
      omega

namespace WhileOp

variable {ρ σ γ : Type} (op : WhileOp ρ σ) (refs : ρ) (init : σ)

/-! ### Slots that hold a stack -/

/-- The slots hold the iterations of a stack and what they were entered with. -/
def Holds (args : List σ) (indexTensor : List Int) : List Nat → Prop
  | [] => True
  | i :: rest => args[rest.length]? = some (op.entering refs init i).2 ∧
      indexTensor[rest.length]? = some (i : Int) ∧ Holds args indexTensor rest

variable {args : List σ} {indexTensor : List Int}

variable {stack : List Nat} {S fuel : Nat} {startIV stepIV currentRevStep : Int} {r : (Int × σ) × BinomialStack σ}

theorem Holds.set (h : op.Holds refs init args indexTensor stack) {j : Nat} (hj : stack.length ≤ j) (val : σ)
    (index : Int) : op.Holds refs init (args.set j val) (indexTensor.set j index) stack := by
  induction stack with
  | nil => trivial
  | cons i rest ih =>
    obtain ⟨hargs, hindex, hrest⟩ := h
    rw [length_cons] at hj
    refine ⟨?_, ?_, ih hrest (by omega)⟩
    · rw [getElem?_set_ne (by omega), hargs]
    · rw [getElem?_set_ne (by omega), hindex]

variable {rest : List Nat}

theorem Holds.push (h : op.Holds refs init args indexTensor rest) (hargs : rest.length < args.length)
    (hindex : rest.length < indexTensor.length) (i : Nat) :
    op.Holds refs init (setIndex args rest.length (op.entering refs init i).2)
      (setIndex indexTensor rest.length i) (i :: rest) := by
  rw [setIndex_natCast hargs, setIndex_natCast hindex]
  exact ⟨getElem?_set_self hargs, getElem?_set_self hindex, h.set op refs init (le_refl _) _ _⟩

theorem iterate_entering (c p : Nat) :
    Loop.iterate (fun i args => some (op.body refs (op.info.start + op.info.step * i) args)) p c
      (op.entering refs init c).2 = some (op.entering refs init (c + p)).2 := by
  refine Loop.iterate_path (fun k => (op.entering refs init (c + k)).2) fun k _ => ?_
  rw [← Nat.cast_add, ← add_assoc, entering_succ_snd, mul_comm]

/-! ### The augmented primal, stretch by stretch -/

theorem binomialOuterBody_eq {m c : Nat} (hS : m + 1 + rest.length = S) :
    op.binomialOuterBody S refs rest.length ⟨(op.entering refs init c).2, args, c, indexTensor⟩ =
      some ⟨(op.entering refs init (c + progress (op.info.limit - c) (m + 1))).2,
        setIndex args rest.length (op.entering refs init c).2,
        ((c + progress (op.info.limit - c) (m + 1) : Nat) : Int),
        setIndex indexTensor rest.length c⟩ := by
  have hbudget : (S : Int) - rest.length = (m + 1 : Nat) := by omega
  have hrun : ∀ p : Nat, Loop.forLoop 0 p
      (fun i args => some (op.body refs (op.info.start + op.info.step * (c + i)) args))
      (op.entering refs init c).2 = some (op.entering refs init (c + p)).2 := fun p =>
    Loop.forLoop_path (fun k => (op.entering refs init (c + k)).2) fun k _ => by
      rw [← Nat.cast_add, ← add_assoc, entering_succ_snd, mul_comm]
  simp only [binomialOuterBody, hbudget, binomialProgress_eq _ (Nat.succ_pos m), hrun,
    bind_eq_bind, bind_some, Nat.cast_add c]

theorem exists_binomial_outer {m : Nat} (c : Nat) (rest : List Nat) (hS : m + rest.length = S)
    (hargs : args.length = S) (hindex : indexTensor.length = S) (hholds : op.Holds refs init args indexTensor rest) :
    ∃ args' indexTensor', Loop.iterate (op.binomialOuterBody S refs) m rest.length
        ⟨(op.entering refs init c).2, args, c, indexTensor⟩ =
        some ⟨(op.entering refs init (place op.info.limit m c rest).1).2, args',
          ((place op.info.limit m c rest).1 : Int), indexTensor'⟩ ∧
      args'.length = S ∧ indexTensor'.length = S ∧
      op.Holds refs init args' indexTensor' (place op.info.limit m c rest).2 := by
  induction m generalizing c args indexTensor rest with
  | zero => exact ⟨args, indexTensor, rfl, hargs, hindex, hholds⟩
  | succ m ih =>
    have hpush := hholds.push op refs init (by omega) (by omega) c
    obtain ⟨args', indexTensor', hrun, hrest⟩ :=
      ih (c + progress (op.info.limit - c) (m + 1)) (c :: rest) (by rw [length_cons]; omega)
        (by simp [setIndex, hargs]) (by simp [setIndex, hindex]) hpush
    refine ⟨args', indexTensor', ?_, hrest⟩
    rw [Loop.iterate_succ, op.binomialOuterBody_eq refs init hS, bind_some, ← Nat.cast_succ]
    exact hrun

/-- What the caches hold for the reverse sweep. -/
structure Cached (S : Nat) (caches : BinomialCaches ρ σ) (stack : List Nat) : Prop where
  outsideRefs : caches.outsideRefs = refs
  args_length : caches.args.length = S
  index_length : caches.indexTensor.length = S
  holds : op.Holds refs init caches.args caches.indexTensor stack

theorem exists_binomialCacheValues (S : Nat) (zero : σ) (hstep : op.info.step ≠ 0) :
    ∃ caches, op.binomialCacheValues S zero refs init =
        some ((op.info.limit, (op.entering refs init (place op.info.limit S 0 []).1).2), caches) ∧
      op.reverseBounds caches = op.info.getNumIters.map (⟨·, op.info.start, op.info.step⟩) ∧
      op.Cached refs init S caches (place op.info.limit S 0 []).2 := by
  obtain ⟨args, indexTensor, hrun, hargs, hindex, hholds⟩ :=
    op.exists_binomial_outer refs init 0 [] (add_zero S)
      (length_replicate (n := S) (a := zero)) (length_replicate (n := S) (a := 0)) trivial
  have houter : Loop.forLoop 0 S (op.binomialOuterBody S refs)
      ⟨init, replicate S zero, 0, replicate S 0⟩ =
      some ⟨(op.entering refs init (place op.info.limit S 0 []).1).2, args,
        ((place op.info.limit S 0 []).1 : Int), indexTensor⟩ := by
    rw [Loop.forLoop, Int.sub_zero, Int.toNat_natCast]
    exact hrun
  by_cases hconst : op.info.isConstant = true
  · refine ⟨⟨args, refs, none, indexTensor⟩, ?_, ?_, rfl, hargs, hindex, hholds⟩
    · simp only [binomialCacheValues, hconst, if_true, Int.toNat_natCast, houter, bind_eq_bind, bind_some]
    · simp only [reverseBounds, WhileLoopInfo.getNumIters, hconst, if_true]
  · refine ⟨⟨args, refs, some ⟨(op.info.limit - op.info.start).tdiv op.info.step, op.info.start,
      op.info.step⟩, indexTensor⟩, ?_, ?_, rfl, hargs, hindex, hholds⟩
    · simp only [binomialCacheValues, WhileLoopInfo.getNumIters, hconst, if_neg hstep,
        Int.toNat_natCast, houter, bind_eq_bind, bind_some, map_some,
        if_false, Bool.false_eq_true]
    · simp only [reverseBounds, WhileLoopInfo.getNumIters, hconst, if_neg hstep, map_some,
        if_false, Bool.false_eq_true]

theorem recording_entering (k : Nat) :
    op.recording.entering refs (init, []) k = (op.info.start + k * op.info.step, ((op.entering refs init k).2,
        (range k).map fun i : Nat => op.info.start + i * op.info.step)) := by
  induction k with
  | zero => simp [recording]
  | succ k ih =>
    rw [entering_succ, ih, entering_succ, bodyStep, bodyStep, entering_fst]
    refine Prod.ext ?_ (Prod.ext rfl ?_)
    · simp only [recording]
      push_cast
      ring
    · simp [recording, range_succ]

theorem getNumIters_eq (hcount : op.TripCount refs init N) (hN : 0 < N)
    (hlimit : op.info.limit = op.info.start + N * op.info.step) : op.info.getNumIters = some (N : Int) := by
  have hstep := hcount.step_pos op refs init hN
  rw [WhileLoopInfo.getNumIters]
  split
  · exact hcount.getConstantNumIters op refs init hN
  · rw [if_neg hstep.ne', hlimit, add_sub_cancel_left, Int.mul_tdiv_cancel _ hstep.ne']

/-! ### Reverse steps -/

theorem rematBody_eq (hi : i < k) (hfree : rest.length < S) :
    op.rematBody S op.info.start op.info.step refs (k + 1 : Nat)
        ⟨i, rest.length, indexTensor, (op.entering refs init i).2, args⟩ =
      some ⟨(i + progress (k + 1 - i : Nat) (S - rest.length) : Nat), (rest.length + 1 : Nat),
        setIndex indexTensor rest.length i,
        (op.entering refs init (i + progress (k + 1 - i : Nat) (S - rest.length))).2,
        setIndex args rest.length (op.entering refs init i).2⟩ := by
  have hremaining : ((k + 1 : Nat) : Int) - i = (k + 1 - i : Nat) := by omega
  have hbudget : (S : Int) - rest.length = (S - rest.length : Nat) := by omega
  have hlt := progress_lt (n := k + 1 - i) (s := S - rest.length) (by omega) (by omega)
  generalize hp : progress (k + 1 - i : Nat) (S - rest.length) = p at hlt ⊢
  have hrun : Loop.forLoop i (i + p)
      (fun j args => some (op.body refs (op.info.start + op.info.step * j) args))
      (op.entering refs init i).2 = some (op.entering refs init (i + p)).2 := by
    rw [Loop.forLoop, add_sub_cancel_left, Int.toNat_natCast]
    exact op.iterate_entering refs init i p
  have hshort : ¬ (i : Int) + p = (k + 1 : Nat) := by omega
  simp only [rematBody, hremaining, hbudget, bind_eq_bind,
    binomialProgress_eq _ (show 0 < S - rest.length by omega), hp, bind_some,
    if_neg hshort, Int.sub_zero, hrun, Nat.cast_add i, Nat.cast_add rest.length, Nat.cast_one]

theorem exists_run_of_rewind {rest : List Nat} (h : Rewind S k i rest stack) (hargs : args.length = S)
    (hindex : indexTensor.length = S) (hholds : op.Holds refs init args indexTensor rest) :
    ∃ fuel args' indexTensor', Loop.run (rematCond (k + 1 : Nat))
        (op.rematBody S op.info.start op.info.step refs (k + 1 : Nat)) fuel
        ⟨i, rest.length, indexTensor, (op.entering refs init i).2, args⟩ =
        some ⟨k, stack.length, indexTensor', (op.entering refs init k).2, args'⟩ ∧
      args'.length = S ∧ indexTensor'.length = S ∧
      op.Holds refs init args' indexTensor' stack := by
  induction h generalizing args indexTensor with
  | stop =>
    refine ⟨1, args, indexTensor, ?_, hargs, hindex, hholds⟩
    rw [Loop.run_succ, if_neg (by simp [rematCond])]
  | @push i rest stack hbefore hfree _ ih =>
    obtain ⟨fuel, args', indexTensor', hrun, hrest⟩ := ih (by simp [setIndex, hargs])
      (by simp [setIndex, hindex]) (hholds.push op refs init (by omega) (by omega) i)
    refine ⟨fuel + 1, args', indexTensor', ?_, hrest⟩
    rw [Loop.run_succ, if_pos (by simp [rematCond]; omega), op.rematBody_eq refs init hbefore hfree, bind_some]
    exact hrun

/-- If the rematerialization loop ends then the stack makes a reverse step. -/
theorem exists_rewind_of_run {s t : Rematerialization σ} (i : Nat) (rest : List Nat) (hstep : s.ckptStep = i)
    (hcapo : s.capo = rest.length) (hi : i ≤ k) (hrun : Loop.run (rematCond (k + 1 : Nat))
      (op.rematBody S op.info.start op.info.step refs (k + 1 : Nat)) fuel s = some t) :
    ∃ stack, Rewind S k i rest stack := by
  induction fuel generalizing i rest s with
  | zero => simp [Loop.run] at hrun
  | succ fuel ih =>
    rcases Nat.eq_or_lt_of_le hi with rfl | hbefore
    · exact ⟨rest, .stop⟩
    rw [Loop.run_succ, if_pos (by simp [rematCond, hstep]; omega)] at hrun
    obtain ⟨s', hbody, hrest⟩ := bind_eq_some_iff.mp hrun
    have hremaining : ((k + 1 : Nat) : Int) - i = (k + 1 - i : Nat) := by omega
    simp only [rematBody, hstep, hcapo, hremaining, bind_eq_bind] at hbody
    obtain ⟨split, hsplit, hbody⟩ := bind_eq_some_iff.mp hbody
    obtain ⟨args, -, hs'⟩ := bind_eq_some_iff.mp hbody
    have hfree : rest.length < S := by
      by_contra hfull
      rw [binomialProgress, if_pos (by omega)] at hsplit
      cases hsplit
    have hbudget : (S : Int) - rest.length = (S - rest.length : Nat) := by omega
    rw [hbudget, binomialProgress_eq _ (by omega)] at hsplit
    cases hsplit
    cases hs'
    have hlt := progress_lt (n := k + 1 - i) (s := S - rest.length) (by omega) (by omega)
    obtain ⟨stack, hrewind⟩ := ih (i + progress (k + 1 - i : Nat) (S - rest.length)) (i :: rest)
      (by push_cast; rfl) (by rw [length_cons]; push_cast; rfl) (by omega) hrest
    exact ⟨stack, .push hbefore hfree hrewind⟩

/-- The outer loop of the reverse sweep carries a stack of iterations. -/
structure Represents (S : Nat) (s : BinomialStack σ) (stack : List Nat) : Prop where
  sp : s.sp = stack.length
  sp_le : stack.length ≤ S
  args_length : s.argCaches.length = S
  index_length : s.indexTensor.length = S
  holds : op.Holds refs init s.argCaches s.indexTensor stack

theorem exists_rematerialize {rest : List Nat} {s : BinomialStack σ} (hs : op.Represents refs init S s (i :: rest))
    (hrewind : Rewind S k i rest stack) (hstack : stack.length ≤ S) :
    ∃ fuel s', op.rematerialize S op.info.start op.info.step refs fuel (k + 1) s =
        some (op.entering refs init k, s') ∧ op.Represents refs init S s' stack := by
  obtain ⟨fuel, args, indexTensor, hrun, hargs, hindex, hholds⟩ :=
    op.exists_run_of_rewind refs init hrewind hs.args_length hs.index_length hs.holds.2.2
  have hcapo : s.sp - 1 = rest.length := by
    rw [hs.sp, length_cons]
    omega
  have htop := hs.sp_le
  rw [length_cons] at htop
  have hlt : rest.length < s.argCaches.length := by rw [hs.args_length]; omega
  have hlt' : rest.length < s.indexTensor.length := by rw [hs.index_length]; omega
  refine ⟨fuel, ⟨stack.length, indexTensor, args⟩, ?_, rfl, hstack, hargs, hindex, hholds⟩
  rw [Nat.cast_succ] at hrun
  simp only [rematerialize, hcapo, getIndex_natCast hlt, getIndex_natCast hlt', hs.holds.1,
    hs.holds.2.1, bind_eq_bind, bind_some, hrun, add_sub_cancel_right]
  rw [mul_comm, ← entering_fst op refs init]

theorem rematerialize_mono {S : Int} {more : Nat} (hle : fuel ≤ more) {s : BinomialStack σ}
    (h : op.rematerialize S startIV stepIV refs fuel currentRevStep s = some r) :
    op.rematerialize S startIV stepIV refs more currentRevStep s = some r := by
  obtain ⟨args, hargs, h⟩ := bind_eq_some_iff.mp h
  obtain ⟨ckptStep, hindex, h⟩ := bind_eq_some_iff.mp h
  obtain ⟨inner, hrun, h⟩ := bind_eq_some_iff.mp h
  simp only [rematerialize, hargs, hindex, bind_eq_bind, bind_some, Loop.run_mono hle hrun]
  exact h

theorem rematerialize_unique {S : Int} {fuel' : Nat} {s : BinomialStack σ} {r' : (Int × σ) × BinomialStack σ}
    (h : op.rematerialize S startIV stepIV refs fuel currentRevStep s = some r)
    (h' : op.rematerialize S startIV stepIV refs fuel' currentRevStep s = some r') : r = r' := by
  have hmax := op.rematerialize_mono refs (le_max_left fuel fuel') h
  rw [op.rematerialize_mono refs (le_max_right fuel fuel') h'] at hmax
  exact (some.inj hmax).symm

theorem exists_rewind {s s' : BinomialStack σ} {handed : Int × σ} (hs : op.Represents refs init S s (i :: rest))
    (hi : i ≤ k) (hstep : op.rematerialize S op.info.start op.info.step refs fuel (k + 1) s =
      some (handed, s')) : ∃ stack, Rewind S k i rest stack := by
  have hcapo : s.sp - 1 = rest.length := by
    rw [hs.sp, length_cons]
    omega
  have htop := hs.sp_le
  rw [length_cons] at htop
  have hlt : rest.length < s.argCaches.length := by rw [hs.args_length]; omega
  have hlt' : rest.length < s.indexTensor.length := by rw [hs.index_length]; omega
  simp only [rematerialize, hcapo, getIndex_natCast hlt, getIndex_natCast hlt', hs.holds.1,
    hs.holds.2.1, bind_eq_bind, bind_some] at hstep
  obtain ⟨inner, hrun, -⟩ := bind_eq_some_iff.mp hstep
  exact op.exists_rewind_of_run refs i rest rfl rfl hi (by rw [Nat.cast_succ]; exact hrun)

end WhileOp

theorem Rewind.length_le {S : Nat} {rest stack : List Nat} (h : Rewind S k i rest stack)
    (hrest : rest.length ≤ S) : stack.length ≤ S := by
  induction h with
  | stop => exact hrest
  | push hbefore hfree _ ih => exact ih (by rw [length_cons]; omega)

namespace WhileOp

variable {ρ σ γ : Type} (op : WhileOp ρ σ) (refs : ρ) (init : σ)

/-! ### Sound stacks -/

theorem Holds.first {S stop : Nat} {rest : List Nat} {args : List σ} {indexTensor : List Int}
    (h : op.Holds refs init args indexTensor (i :: rest)) (hgaps : GapsSound S stop (i :: rest)) :
    indexTensor[0]? = some 0 := by
  induction rest generalizing stop i with
  | nil =>
    obtain ⟨-, -, rfl⟩ := hgaps
    exact h.2.1
  | cons i' rest ih => exact ih h.2.2 hgaps.2.2

section

variable {S stop : Nat} {stack : List Nat} {args : List σ} {indexTensor : List Int}
  (h : op.Holds refs init args indexTensor stack) (hgaps : GapsSound S stop stack) {j : Nat}

include h hgaps

theorem Holds.get (hj : j < stack.length) : ∃ i < stop, indexTensor[j]? = some (i : Int) ∧
      args[j]? = some (op.entering refs init i).2 := by
  induction stack generalizing stop with
  | nil => simp at hj
  | cons i rest ih =>
    obtain ⟨hlt, -, hrest⟩ := hgaps
    rw [length_cons] at hj
    rcases Nat.lt_succ_iff_lt_or_eq.mp hj with hbelow | rfl
    · obtain ⟨i', hi', hget⟩ := ih h.2.2 hrest hbelow
      exact ⟨i', by omega, hget⟩
    · exact ⟨i, hlt, h.2.1, h.1⟩

theorem Holds.increasing (hj : j + 1 < stack.length) :
    ∃ a b : Int, indexTensor[j]? = some a ∧ indexTensor[j + 1]? = some b ∧ a < b := by
  induction stack generalizing stop with
  | nil => simp at hj
  | cons i rest ih =>
    rw [length_cons] at hj
    rcases Nat.lt_succ_iff_lt_or_eq.mp hj with hbelow | htop
    · exact ih h.2.2 hgaps.2.2 hbelow
    · obtain ⟨i', hi', hindex, -⟩ := h.2.2.get op refs init hgaps.2.2 (show j < rest.length by omega)
      exact ⟨i', i, hindex, htop ▸ h.2.1, by omega⟩

end

theorem Represents.stackSound {S : Nat} {stack : List Nat} {s : BinomialStack σ}
    (hs : op.Represents refs init S s stack) (hgaps : GapsSound S (k + 1) stack) : op.StackSound S refs init k s := by
  cases stack with
  | nil => cases hgaps
  | cons i rest =>
    refine ⟨?_, ?_, hs.holds.first op refs init hgaps, fun j hj => ?_, fun j hj => ?_⟩
    · rw [hs.sp, length_cons]
      omega
    · rw [hs.sp]
      exact Int.ofNat_le.mpr hs.sp_le
    · rw [hs.sp] at hj
      obtain ⟨i', hi', hget⟩ := hs.holds.get op refs init hgaps (Int.ofNat_lt.mp hj)
      exact ⟨i', by omega, hget⟩
    · rw [hs.sp] at hj
      exact hs.holds.increasing op refs init hgaps (by omega)

theorem StackSound.sp_le_succ {S : Int} {s : BinomialStack σ} (h : op.StackSound S refs init k s) : s.sp ≤ k + 1 := by
  have hindex : ∀ j : Nat, j < s.sp → ∃ a : Int, s.indexTensor[j]? = some a ∧ (j : Int) ≤ a := by
    intro j hj
    induction j with
    | zero => exact ⟨0, h.first, Int.le_refl 0⟩
    | succ j ih =>
      obtain ⟨a, ha, hle⟩ := ih (by push_cast at hj; omega)
      obtain ⟨a', b, ha', hb, hlt⟩ := h.increasing j (by push_cast at hj; omega)
      obtain rfl : a = a' := some.inj (ha.symm.trans ha')
      exact ⟨b, hb, by push_cast; omega⟩
  obtain ⟨top, htop⟩ := Int.eq_ofNat_of_zero_le (show 0 ≤ s.sp - 1 by have := h.sp_pos; omega)
  obtain ⟨a, ha, hle⟩ := hindex top (by omega)
  obtain ⟨i, hi, hget, -⟩ := h.holds top (by omega)
  obtain rfl : a = i := some.inj (ha.symm.trans hget)
  omega

section

variable {S : Nat} {stack : List Nat} {s : BinomialStack σ} (hs : op.Represents refs init S s stack)

include hs

theorem Represents.reverses (hgaps : GapsSound S k stack) : op.Reverses S refs init k s := by
  induction k generalizing stack s with
  | zero => trivial
  | succ k ih =>
    refine ⟨hs.stackSound op refs init hgaps, ?_⟩
    cases stack with
    | nil => cases hgaps
    | cons i rest =>
      obtain ⟨hlt, hgap, hrest⟩ := hgaps
      have hlen := hs.sp_le
      rw [length_cons] at hlen
      obtain ⟨stack, hrewind, hnext, hlength⟩ :=
        hgap.exists_rewind (by omega) (by omega) hrest
      obtain ⟨fuel, s', hstep, hs'⟩ := op.exists_rematerialize refs init hs hrewind hlength
      exact ⟨fuel, s', hstep, ih hs' hnext⟩

theorem Represents.gapsSound (h : op.Reverses S refs init (k + 1) s) : GapsSound S (k + 1) stack := by
  induction k generalizing stack s with
  | zero =>
    have hsp := h.1.sp_le_succ op refs init
    have hpos := h.1.sp_pos
    rw [hs.sp, Nat.cast_zero, zero_add] at hsp
    rw [hs.sp] at hpos
    obtain ⟨i, rfl⟩ : ∃ i, stack = [i] := length_eq_one_iff.mp (by omega)
    obtain rfl : i = 0 := by
      have hfirst := hs.holds.2.1.symm.trans h.1.first
      exact Int.ofNat_eq_zero.mp (some.inj hfirst)
    exact ⟨one_pos, .one, rfl⟩
  | succ k ih =>
    obtain ⟨hsound, fuel, s', hstep, hrest⟩ := h
    cases stack with
    | nil =>
      have hpos := hsound.sp_pos
      rw [hs.sp] at hpos
      simp at hpos
    | cons i rest =>
      have hi : i ≤ k + 1 := by
        obtain ⟨i', hi', hindex, -⟩ := hsound.holds rest.length (by rw [hs.sp]; simp)
        have heq := Int.ofNat.inj (some.inj (hindex.symm.trans hs.holds.2.1))
        omega
      obtain ⟨stack, hrewind⟩ := op.exists_rewind refs init hs hi hstep
      have hlen := hs.sp_le
      rw [length_cons] at hlen
      obtain ⟨fuel', s'', hstep', hs''⟩ :=
        op.exists_rematerialize refs init hs hrewind (hrewind.length_le (by omega))
      obtain rfl := (Prod.mk.inj (op.rematerialize_unique refs hstep hstep')).2
      obtain ⟨hgap, hbelow⟩ := hrewind.gapsSound (ih hs'' hrest)
      exact ⟨by omega, hgap, hbelow⟩

end

theorem Reverses.exists_sweep {S : Int} {s : BinomialStack σ} (hk : k ≤ n) (h : op.Reverses S refs init k s)
    (adj : ρ → Int → σ → γ → γ) (grad : γ) : ∃ enough, ∀ fuel ≥ enough, ∃ s',
      Loop.iterate (op.binomialRevBody S ⟨n, op.info.start, op.info.step⟩ adj refs fuel) k
        (n - k : Nat) (s, grad) = some (s', op.sweep refs init adj k grad) := by
  induction k generalizing s grad with
  | zero => exact ⟨0, fun _ _ => ⟨s, rfl⟩⟩
  | succ k ih =>
    obtain ⟨-, fuel, s', hstep, hrest⟩ := h
    obtain ⟨enough, hrun⟩ := ih (by omega) hrest
      (adj refs (op.entering refs init k).1 (op.entering refs init k).2 grad)
    refine ⟨max fuel enough, fun more hmore => ?_⟩
    obtain ⟨t, ht⟩ := hrun more (le_trans (le_max_right _ _) hmore)
    have hbody := op.rematerialize_mono refs (le_trans (le_max_left _ _) hmore) hstep
    have hleft : (n : Int) - (n - (k + 1) : Nat) = (k + 1 : Nat) := by omega
    refine ⟨t, ?_⟩
    rw [Loop.iterate_succ, binomialRevBody]
    simp only [hleft, Nat.cast_succ, hbody, bind_eq_bind, bind_some]
    rw [show ((n - (k + 1) : Nat) : Int) + 1 = (n - k : Nat) by omega]
    exact ht

/-! ### When the pair is exact -/

/-- What the two halves rely on: the loop ends exactly at its limit, the limit is the number of iterations, and no
stretch that is to be reversed has fewer iterations than checkpoints. -/
structure BinomiallySound (S N : Nat) : Prop where
  limit_eq : op.info.limit = op.info.start + N * op.info.step
  budget_le : S ≤ N
  count : op.info.limit = N ∨ op.info.limit = 1 ∧ N = 2
  schedule : Schedule N S

theorem executed_iff {S : Nat} (zero : σ) (hstep : op.info.step ≠ 0) :
    (op.recording.binomialCacheValues S (zero, []) refs (init, [])).map (·.1.2.2) =
        some ((range N).map fun k : Nat => op.info.start + k * op.info.step) ↔
      (place op.info.limit S 0 []).1 = N := by
  obtain ⟨caches, hcache, -, -⟩ :=
    op.recording.exists_binomialCacheValues refs (init, []) S (zero, []) hstep
  rw [hcache, map_some, recording_entering, some.injEq]
  constructor
  · intro h
    have hlen := congrArg length h
    rw [length_map, length_map, length_range, length_range] at hlen
    exact hlen
  · intro h
    exact congrArg (fun T => (range T).map fun k : Nat => op.info.start + k * op.info.step) h

theorem BinomiallySound.gapsSound {S : Nat} (h : op.BinomiallySound S N) (hS : 2 ≤ S) :
    (place op.info.limit S 0 []).1 = N ∧ GapsSound S N (place op.info.limit S 0 []).2 := by
  have hbudget := h.budget_le
  rcases h.count with hlimit | ⟨hlimit, rfl⟩
  · have htotal := place_fst op.info.limit (show 0 < S by omega) 0 []
    rw [hlimit] at htotal ⊢
    refine ⟨?_, (gapsSound_place_iff (by omega) (add_zero S) (by omega)).mpr
      ⟨h.schedule, rfl⟩⟩
    split_ifs at htotal <;> omega
  · obtain rfl : S = 2 := by omega
    rw [hlimit, show place 1 2 0 [] = (2, [1, 0]) by decide]
    exact ⟨rfl, by omega, .one, by omega, .one, rfl⟩

/-- Five iterations from 0. -/
def counting : WhileOp Unit Int := ⟨⟨0, 5, 1, true⟩, fun _ iv s => 2 * s + iv⟩

end WhileOp

end EnzymeJax
