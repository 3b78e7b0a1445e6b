import EnzymeJax.WhileLoop.SimpleIV

/-!
# Carried integers in closed form

A carried value to which the body adds a constant is replaced by an expression in the counter, and after the loop in
the limit. In the body that is exact. After the loop it is so if the counter reaches the limit without passing
it, or the value does not change, or the division gives zero.
-/

namespace EnzymeJax.WhileLoop

open Tensor Straightline List Option Function

variable {α V : Type} [DecidableEq V]

/-- A type of integer tensors. -/
structure TensorType where
  element : IntType
  shape : List Nat
  deriving DecidableEq

def TensorType.Has (type : TensorType) (x : Val α) : Prop :=
  x.shape = type.shape ∧ ∀ idx ∈ indices type.shape, ∃ n, x.tensor.get idx = .int n ∧ type.element.wrap n = n

namespace InductionReplacement

/-- The values of an expression. -/
inductive Part
  | offset
  | convertedOffset
  | sizedOffset
  | scaledOffset
  | convertedStep
  | sizedStep
  | normalizedOffset
  | replacement
  deriving DecidableEq

inductive Name (V : Type)
  | old (v : V)
  | inBody (arg : V) (part : Part)
  | after (result : V) (part : Part)
  deriving DecidableEq

section

variable {W : Type}

def getCorrectlySizedValue (orig : W) (origType targetType : TensorType) (converted sized : W) :
    List (Instr (Op α) W) × W :=
  if origType = targetType then ([], orig)
  else
    let (code, value, type) := if origType.element ≠ targetType.element
      then ([⟨converted, .convert targetType.element, [orig]⟩], converted, ⟨targetType.element, []⟩)
      else (([] : List (Instr (Op α) W)), orig, origType)
    if type ≠ targetType then (code ++ [⟨sized, .broadcastInDim [] targetType.shape, [value]⟩], sized)
    else (code, value)

/-- `init + (current - start) * step / counterStep`. -/
def closedForm (name : Part → W) (counterType valueType : TensorType) (current start init step counterStep : W) :
    List (Instr (Op α) W) :=
  let offset := getCorrectlySizedValue (name .offset) counterType valueType (name .convertedOffset) (name .sizedOffset)
  let divisor := getCorrectlySizedValue counterStep counterType valueType (name .convertedStep) (name .sizedStep)
  ⟨name .offset, .subtract counterType.element, [current, start]⟩ :: offset.1 ++
    [⟨name .scaledOffset, .multiply valueType.element, [offset.2, step]⟩] ++ divisor.1 ++
    [⟨name .normalizedOffset, .divide valueType.element, [name .scaledOffset, divisor.2]⟩,
      ⟨name .replacement, .add valueType.element, [init, name .normalizedOffset]⟩]

end

variable (w : WhileOp α V) (typeOf : V → Option TensorType)

def findCounterAndLimit : Option (Nat × V) :=
  match w.getDefiningOp w.loop.condOps w.loop.test with
  | some (.compare .LT, [lhs, rhs]) =>
    match w.loop.carried.findIdx? fun c => c.condArg = lhs with
    | some i => some (i, rhs)
    | none => (w.loop.carried.findIdx? fun c => c.condArg = rhs).map fun i => (i, lhs)
  | _ => none

/-- What the body adds to the argument, to yield it. -/
def addedTo (c : Carried V) : Option V :=
  match w.getDefiningOp w.loop.bodyOps c.yield with
  | some (.add _, [lhs, rhs]) => if lhs = c.bodyArg then some rhs else if rhs = c.bodyArg then some lhs else none
  | _ => none

def isConstant (v : V) : Bool :=
  match w.getDefiningOp w.loop.bodyOps v with
  | some (.constant _, _) => true
  | _ => false

structure Counter (V : Type) where
  index : Nat
  limit : V
  value : Carried V
  step : V
  type : TensorType

def findCounter : Option (Counter V) := do
  let (counterIdx, limitValue) ← findCounterAndLimit w
  guard (w.definedOutside limitValue)
  let counter ← w.loop.carried[counterIdx]?
  let counterStepValue ← addedTo w counter
  let type ← typeOf counter.operand
  return ⟨counterIdx, limitValue, counter, counterStepValue, type⟩

/-- A value to which a constant is added. -/
structure Candidate (V : Type) where
  index : Nat
  value : Carried V
  step : V
  type : TensorType

def candidates : List (Candidate V) :=
  w.loop.carried.zipIdx.filterMap fun p => do
    let stepValue ← addedTo w p.1
    guard (isConstant w stepValue)
    let type ← typeOf stepValue
    return ⟨p.2, p.1, stepValue, type⟩

/-- The candidates whose arguments are replaced. -/
def replacedInBody (counter : Counter V) : List (Candidate V) :=
  (candidates w typeOf).filter fun c => c.index ≠ counter.index

/-- The candidates whose results are replaced. -/
def replacedAfter (resultUsed : V → Bool) : List (Candidate V) :=
  (candidates w typeOf).filter fun c => resultUsed c.value.result

/-- The uses in the body. -/
def inBody (counter : Counter V) : V → Name V :=
  Straightline.assign (replacedInBody w typeOf counter) (fun c => c.value.bodyArg) (fun c => .inBody c.value.bodyArg .replacement)
    .old

/-- The uses after the loop. -/
def afterLoop (resultUsed : V → Bool) : V → Name V :=
  Straightline.assign (replacedAfter w typeOf resultUsed) (fun c => c.value.result) (fun c => .after c.value.result .replacement)
    .old

def bodyReplacement (counter : Counter V) (c : Candidate V) : List (Instr (Op α) (Name V)) :=
  closedForm (.inBody c.value.bodyArg) counter.type c.type (.old counter.value.bodyArg) (.old counter.value.operand)
    (.old c.value.operand) (.old c.step) (.old counter.step)

def resultReplacement (counter : Counter V) (c : Candidate V) : List (Instr (Op α) (Name V)) :=
  closedForm (.after c.value.result) counter.type c.type (.old counter.limit) (.old counter.value.operand)
    (.old c.value.operand) (.old c.step) (.old counter.step)

/-- Each expression is put in front of those of the candidates before. -/
def matchAndRewrite (resultUsed : V → Bool) : Option (Program (Op α) (Name V)) := do
  let counter ← findCounter w typeOf
  guard (replacedInBody w typeOf counter ≠ [] ∨ replacedAfter w typeOf resultUsed ≠ [])
  return ⟨[], ⟨w.loop.carried.map fun c => { c.map .old with yield := inBody w typeOf counter c.yield },
      w.loop.condOps.map (Instr.rename .old .old), .old w.loop.test,
      (replacedInBody w typeOf counter).reverse.flatMap (bodyReplacement counter) ++
        w.loop.bodyOps.map (Instr.rename .old (inBody w typeOf counter))⟩,
    (replacedAfter w typeOf resultUsed).reverse.flatMap (resultReplacement counter)⟩

/-- What the verifier asks of the types. -/
structure WellTyped (env : V → Val α) : Prop where
  add : ∀ v type a b, w.getDefiningOp w.loop.bodyOps v = some (.add type, [a, b]) →
    ∃ shape, typeOf v = some ⟨type, shape⟩ ∧ typeOf a = some ⟨type, shape⟩ ∧ typeOf b = some ⟨type, shape⟩
  compare : ∀ direction a b, w.getDefiningOp w.loop.condOps w.loop.test = some (.compare direction, [a, b]) →
    ∃ type, typeOf a = some ⟨type, []⟩ ∧ typeOf b = some ⟨type, []⟩
  carried : ∀ c ∈ w.loop.carried, typeOf c.condArg = typeOf c.operand ∧ typeOf c.bodyArg = typeOf c.operand ∧
    typeOf c.yield = typeOf c.operand
  outside : ∀ v type, w.definedOutside v = true → typeOf v = some type → type.Has (env v)

/-! ### The expression -/

theorem exists_ofInts {type : TensorType} {x : Val α} (h : type.Has x) :
    ∃ f, x = ofInts type.shape f ∧ ∀ idx ∈ indices type.shape, type.element.wrap (f idx) = f idx := by
  obtain ⟨hshape, hget⟩ := h
  have hentry : ∀ idx, ∃ n, idx ∈ indices type.shape → x.tensor.get idx = .int n ∧ type.element.wrap n = n := by
    intro idx
    by_cases hidx : idx ∈ indices type.shape
    · exact (hget idx hidx).imp fun n hn _ => hn
    · exact ⟨0, fun h => absurd h hidx⟩
  choose f hf using hentry
  exact ⟨f, eq_ofInts.mpr ⟨hshape, fun idx hidx => (hf idx hidx).1⟩, fun idx hidx => (hf idx hidx).2⟩

section

variable {W : Type} [DecidableEq W] {e e₀ : W → Val α} {n : Int} {counterType valueType : TensorType}

omit [DecidableEq W] in
theorem getCorrectlySizedValue_cases (orig converted sized : W) (origType targetType : TensorType) :
    let value := getCorrectlySizedValue (α := α) orig origType targetType converted sized
    let convert : Instr (Op α) W := ⟨converted, .convert targetType.element, [orig]⟩
    let broadcast := fun v : W => (⟨sized, .broadcastInDim [] targetType.shape, [v]⟩ : Instr (Op α) W)
    (origType = targetType ∧ value = ([], orig)) ∨ value = ([broadcast orig], sized) ∨
      (targetType.shape = [] ∧ value = ([convert], converted)) ∨ value = ([convert, broadcast converted], sized) := by
  intro value convert broadcast
  by_cases htype : origType = targetType
  · exact .inl ⟨htype, if_pos htype⟩
  · by_cases helement : origType.element = targetType.element
    · refine .inr (.inl ?_)
      simp [value, broadcast, getCorrectlySizedValue, htype, helement]
    · by_cases hscalar : (⟨targetType.element, []⟩ : TensorType) = targetType
      · refine .inr (.inr (.inl ⟨hscalar ▸ rfl, ?_⟩))
        simp [value, convert, getCorrectlySizedValue, htype, helement, hscalar]
      · refine .inr (.inr (.inr ?_))
        simp [value, convert, broadcast, getCorrectlySizedValue, htype, helement, hscalar]

theorem run_getCorrectlySizedValue {orig : W} (converted sized : W) {origType : TensorType}
    (horig : e orig = ofInt n) (hshape : origType.shape = []) (hfit : valueType.element.wrap n = n) :
    ∃ e', run (semantics α) (getCorrectlySizedValue orig origType valueType converted sized).1 e = some e' ∧
      e' (getCorrectlySizedValue (α := α) orig origType valueType converted sized).2 =
        ofInts valueType.shape (fun _ => n) ∧
      ∀ v, v ≠ converted → v ≠ sized → e' v = e v := by
  have hbroadcast : ∀ x : Val α, x = ofInt n →
      (Op.broadcastInDim [] valueType.shape).eval [x] = some (ofInts valueType.shape fun _ => n) := by
    rintro x rfl
    exact eval_broadcastInDim_ofInt valueType.shape n
  have hconvert : (Op.convert valueType.element).eval [e orig] = some (ofInt n) := by
    rw [horig, eval_convert_ofInt, hfit]
  rcases getCorrectlySizedValue_cases (α := α) orig converted sized origType valueType with
    ⟨htype, h⟩ | h | ⟨hscalar, h⟩ | h
  · rw [h]
    refine ⟨e, rfl, ?_, fun _ _ _ => rfl⟩
    rw [← htype, hshape]
    exact horig
  · rw [h]
    exact ⟨_, run_cons_eq_some.mpr ⟨_, hbroadcast _ horig, rfl⟩, update_self .., fun v _ hv => update_of_ne hv ..⟩
  · rw [h, hscalar]
    exact ⟨_, run_cons_eq_some.mpr ⟨_, hconvert, rfl⟩, update_self .., fun v hv _ => update_of_ne hv ..⟩
  · rw [h]
    exact ⟨_, run_cons_eq_some.mpr ⟨_, hconvert, run_cons_eq_some.mpr
      ⟨_, hbroadcast _ (update_self ..), rfl⟩⟩, update_self ..,
      fun v hv hv' => (update_of_ne hv' ..).trans (update_of_ne hv ..)⟩

section

variable {name : Part → W} {current start init step counterStep : W} {a s c : Int} {i d : List Nat → Int}

theorem arith_eq_ofInts {shape : List Nat} {F : Int → Int → Option Int} {f g h : List Nat → Int}
    (hF : ∀ idx ∈ indices shape, F (f idx) (g idx) = some (h idx)) :
    arith F (ofInts shape f) (ofInts shape g) = some (ofInts shape h : Val α) :=
  arith_ofInts.mpr ⟨h, rfl, hF⟩

theorem eval_divide (type : IntType) (shape : List Nat) (f : List Nat → Int) {z : Val α} :
    (Op.divide type).eval [ofInts shape f, ofInts shape fun _ => c] = some z ↔
      (∀ idx ∈ indices shape, c ≠ 0) ∧ z = ofInts shape fun idx => type.wrap ((f idx).tdiv c) := by
  change arith (fun a b => if b = 0 then none else some (type.wrap (a.tdiv b))) _ _ = some z ↔ _
  rw [arith_ofInts]
  constructor
  · rintro ⟨h, rfl, hdiv⟩
    have hzero : ∀ idx ∈ indices shape, c ≠ 0 ∧ type.wrap ((f idx).tdiv c) = h idx := by
      intro idx hidx
      have hat := hdiv idx hidx
      rwa [ite_none_left_eq_some, some.injEq] at hat
    exact ⟨fun idx hidx => (hzero idx hidx).1, ofInts_congr fun idx hidx => (hzero idx hidx).2.symm⟩
  · rintro ⟨hzero, rfl⟩
    exact ⟨_, rfl, fun idx hidx => if_neg (hzero idx hidx)⟩

theorem run_closedForm (hname : Function.Injective name)
    (hfresh : ∀ part, name part ≠ init ∧ name part ≠ step ∧ name part ≠ counterStep) (hcounter : counterType.shape = [])
    (hcurrent : e current = ofInt a) (hstart : e start = ofInt s) (hcounterStep : e counterStep = ofInt c)
    (hinit : e init = ofInts valueType.shape i) (hstep : e step = ofInts valueType.shape d)
    (hoffset : counterType.element.wrap (a - s) = a - s) (hsized : valueType.element.wrap (a - s) = a - s)
    (hdivisor : valueType.element.wrap c = c)
    (hscaled : ∀ idx ∈ indices valueType.shape, valueType.element.wrap ((a - s) * d idx) = (a - s) * d idx)
    {z : Val α} :
    (∃ e', run (semantics α) (closedForm name counterType valueType current start init step counterStep) e = some e' ∧
      e' (name .replacement) = z) ↔ (∀ idx ∈ indices valueType.shape, c ≠ 0) ∧ z = ofInts valueType.shape fun idx =>
        valueType.element.wrap (i idx + valueType.element.wrap (((a - s) * d idx).tdiv c)) := by
  have hne : ∀ p q, p ≠ q → name p ≠ name q := fun p q hpq h => hpq (hname h)
  -- up to the division nothing can fail
  have hsubtract : (Op.subtract counterType.element).eval ([current, start].map e) = some (ofInt (a - s)) := by
    rw [map_cons, map_singleton, hcurrent, hstart, ← ofInts_nil, ← ofInts_nil, ← ofInts_nil]
    exact arith_eq_ofInts fun idx _ => congrArg some hoffset
  obtain ⟨e₂, hrun₂, hvalue₂, hold₂⟩ := run_getCorrectlySizedValue (name .convertedOffset) (name .sizedOffset)
    (update_self (name .offset) (ofInt (a - s)) e) hcounter hsized
  have hkeep₂ : ∀ v, (∀ part, name part ≠ v) → e₂ v = e v := fun v hv => by
    rw [hold₂ v (hv _).symm (hv _).symm, update_of_ne (hv _).symm]
  have hmultiply : (Op.multiply valueType.element).eval ([(getCorrectlySizedValue (α := α) (name .offset) counterType
      valueType (name .convertedOffset) (name .sizedOffset)).2, step].map e₂) =
        some (ofInts valueType.shape fun idx => (a - s) * d idx) := by
    rw [map_cons, map_singleton, hvalue₂, hkeep₂ step fun part => (hfresh part).2.1, hstep]
    exact arith_eq_ofInts fun idx hidx => congrArg some (hscaled idx hidx)
  set e₃ := update e₂ (name .scaledOffset) (ofInts valueType.shape fun idx => (a - s) * d idx) with he₃
  have hkeep₃ : ∀ v, (∀ part, name part ≠ v) → e₃ v = e v := fun v hv => by
    rw [he₃, update_of_ne (hv _).symm, hkeep₂ v hv]
  obtain ⟨e₄, hrun₄, hvalue₄, hold₄⟩ := run_getCorrectlySizedValue (name .convertedStep) (name .sizedStep)
    ((hkeep₃ counterStep fun part => (hfresh part).2.2).trans hcounterStep) hcounter hdivisor
  have hkeep₄ : ∀ v, (∀ part, name part ≠ v) → e₄ v = e v := fun v hv => by
    rw [hold₄ v (hv _).symm (hv _).symm, hkeep₃ v hv]
  have hscaled₄ : e₄ (name .scaledOffset) = ofInts valueType.shape fun idx => (a - s) * d idx := by
    rw [hold₄ (name .scaledOffset) (hne _ _ nofun) (hne _ _ nofun), he₃, update_self]
  have hrun : run (semantics α) (closedForm name counterType valueType current start init step counterStep) e =
      run (semantics α) [⟨name .normalizedOffset, .divide valueType.element, [name .scaledOffset,
        (getCorrectlySizedValue (α := α) counterStep counterType valueType (name .convertedStep) (name .sizedStep)).2]⟩,
        ⟨name .replacement, .add valueType.element, [init, name .normalizedOffset]⟩] e₄ := by
    have hfirst : run (semantics α) (⟨name .offset, .subtract counterType.element, [current, start]⟩ ::
        (getCorrectlySizedValue (name .offset) counterType valueType (name .convertedOffset) (name .sizedOffset)).1) e =
          some e₂ := run_cons_eq_some.mpr ⟨_, hsubtract, hrun₂⟩
    rw [closedForm, run_append, run_append, run_append, hfirst, bind_some,
      run_cons_eq_some.mpr ⟨_, hmultiply, rfl⟩, bind_some, ← he₃, hrun₄, bind_some]
  have hops : [name .scaledOffset, (getCorrectlySizedValue (α := α) counterStep counterType valueType
      (name .convertedStep) (name .sizedStep)).2].map e₄ =
        [ofInts valueType.shape fun idx => (a - s) * d idx, ofInts valueType.shape fun _ => c] := by
    rw [map_cons, map_singleton, hscaled₄, hvalue₄]
  have hdivide := fun q : Val α => eval_divide (c := c) (z := q) valueType.element valueType.shape fun idx =>
    (a - s) * d idx
  have hadd : ∀ q : List Nat → Int, (Op.add valueType.element).eval ([init, name .normalizedOffset].map
      (update e₄ (name .normalizedOffset) (ofInts valueType.shape q))) =
        some (ofInts valueType.shape fun idx => valueType.element.wrap (i idx + q idx)) := by
    intro q
    rw [map_cons, map_singleton, update_self, update_of_ne (hfresh _).1.symm,
      hkeep₄ init fun part => (hfresh part).1, hinit]
    exact arith_eq_ofInts fun idx _ => rfl
  rw [hrun]
  constructor
  · rintro ⟨e', he', rfl⟩
    obtain ⟨q, hq, he'⟩ := run_cons_eq_some.mp he'
    obtain ⟨hzero, rfl⟩ := (hdivide q).mp (hops ▸ hq)
    obtain ⟨z, hz, he'⟩ := run_cons_eq_some.mp he'
    cases he'
    refine ⟨hzero, (update_self ..).trans (some.inj (hz.symm.trans (hadd _)))⟩
  · rintro ⟨hzero, rfl⟩
    exact ⟨_, run_cons_eq_some.mpr ⟨_, hops ▸ (hdivide _).mpr ⟨hzero, rfl⟩,
      run_cons_eq_some.mpr ⟨_, hadd _, rfl⟩⟩, update_self ..⟩

end

end

/-! ### What is replaced -/

variable {w typeOf}

theorem result_closedForm {W : Type} {name : Part → W} {counterType valueType : TensorType}
    {current start init step counterStep : W} {j : Instr (Op α) W}
    (hj : j ∈ closedForm name counterType valueType current start init step counterStep) :
    ∃ part, j.result = name part := by
  have hsized : ∀ (orig : W) (p q : Part), ∀ j ∈ (getCorrectlySizedValue (α := α) orig counterType valueType (name p)
      (name q)).1, ∃ part, j.result = name part := by
    intro orig p q j hj
    rcases getCorrectlySizedValue_cases (α := α) orig (name p) (name q) counterType valueType with
      ⟨-, h⟩ | h | ⟨-, h⟩ | h
    · rw [h] at hj
      cases hj
    · rw [h] at hj
      exact ⟨q, congrArg Instr.result (mem_singleton.mp hj)⟩
    · rw [h] at hj
      exact ⟨p, congrArg Instr.result (mem_singleton.mp hj)⟩
    · rw [h] at hj
      rcases mem_cons.mp hj with rfl | hj
      · exact ⟨p, rfl⟩
      · exact ⟨q, congrArg Instr.result (mem_singleton.mp hj)⟩
  simp only [closedForm, mem_append, mem_cons, not_mem_nil, or_false] at hj
  rcases hj with (((rfl | hj) | rfl) | hj) | rfl | rfl
  · exact ⟨_, rfl⟩
  · exact hsized _ _ _ j hj
  · exact ⟨_, rfl⟩
  · exact hsized _ _ _ j hj
  · exact ⟨_, rfl⟩
  · exact ⟨_, rfl⟩

theorem of_mem_candidates {c : Candidate V} (hc : c ∈ candidates w typeOf) :
    w.loop.carried[c.index]? = some c.value ∧ addedTo w c.value = some c.step ∧ isConstant w c.step = true ∧
      typeOf c.step = some c.type := by
  obtain ⟨⟨value, index⟩, hp, h⟩ := mem_filterMap.mp hc
  obtain ⟨step, hstep, h⟩ := bind_eq_some_iff.mp h
  obtain ⟨_, hconstant, h⟩ := bind_eq_some_iff.mp h
  obtain ⟨type, htype, h⟩ := bind_eq_some_iff.mp h
  cases h
  exact ⟨mk_mem_zipIdx_iff_getElem?.mp hp, hstep, by simpa using hconstant, htype⟩

theorem mem_of_candidates {c : Candidate V} (hc : c ∈ candidates w typeOf) : c.value ∈ w.loop.carried :=
  mem_of_getElem? (of_mem_candidates hc).1

theorem nodup_candidates {arg : Carried V → V} {p : Candidate V → Bool} (hnodup : (w.loop.carried.map arg).Nodup) :
    (((candidates w typeOf).filter p).map fun c => arg c.value).Nodup := by
  have hsub : ∀ (f : Carried V × Nat → Option (Candidate V)), (∀ q c, f q = some c → c.value = q.1) →
      ∀ l : List (Carried V × Nat), ((l.filterMap f).map Candidate.value).Sublist (l.map Prod.fst) := by
    intro f hf l
    induction l with
    | nil => exact List.Sublist.slnil
    | cons q l ih =>
      rw [filterMap_cons, map_cons]
      cases hq : f q with
      | none => exact ih.cons _
      | some c =>
        rw [map_cons, hf q c hq]
        exact ih.cons_cons _
  have hvals : ((candidates w typeOf).map Candidate.value).Sublist w.loop.carried := by
    have h := hsub (fun p => do
      let stepValue ← addedTo w p.1
      guard (isConstant w stepValue)
      let type ← typeOf stepValue
      return ⟨p.2, p.1, stepValue, type⟩) (fun q c hc => ?_) w.loop.carried.zipIdx
    · rwa [zipIdx_map_fst] at h
    · obtain ⟨step, -, hc⟩ := bind_eq_some_iff.mp hc
      obtain ⟨_, -, hc⟩ := bind_eq_some_iff.mp hc
      obtain ⟨type, -, hc⟩ := bind_eq_some_iff.mp hc
      rw [← some.inj hc]
  have hargs : (((candidates w typeOf).filter p).map fun c => arg c.value).Sublist (w.loop.carried.map arg) := by
    have h := (filter_sublist (p := p) (l := candidates w typeOf)).map Candidate.value
    have h' := (h.trans hvals).map arg
    rwa [List.map_map] at h'
  exact hnodup.sublist hargs

variable (w typeOf) in
/-- What `findCounter` finds. -/
structure IsCounter (counter : Counter V) : Prop where
  getElem_index : w.loop.carried[counter.index]? = some counter.value
  limit_outside : w.definedOutside counter.limit = true
  added : addedTo w counter.value = some counter.step
  typeOf_start : typeOf counter.value.operand = some counter.type
  test : w.getDefiningOp w.loop.condOps w.loop.test = some (.compare .LT, [counter.value.condArg, counter.limit]) ∨
      w.getDefiningOp w.loop.condOps w.loop.test = some (.compare .LT, [counter.limit, counter.value.condArg])

theorem isCounter_of_findCounter {counter : Counter V} (h : findCounter w typeOf = some counter) :
    IsCounter w typeOf counter := by
  obtain ⟨⟨index, limit⟩, hfound, h⟩ := bind_eq_some_iff.mp h
  obtain ⟨_, hout, h⟩ := bind_eq_some_iff.mp h
  obtain ⟨value, hval, h⟩ := bind_eq_some_iff.mp h
  obtain ⟨step, hstep, h⟩ := bind_eq_some_iff.mp h
  obtain ⟨type, htype, h⟩ := bind_eq_some_iff.mp h
  cases h
  refine ⟨hval, by simpa using hout, hstep, htype, ?_⟩
  have hat : ∀ v, w.loop.carried.findIdx? (fun c => c.condArg = v) = some index → value.condArg = v := by
    intro v hv
    obtain ⟨hlt, hfound, -⟩ := findIdx?_eq_some_iff_getElem.mp hv
    obtain ⟨_, rfl⟩ := List.getElem?_eq_some_iff.mp hval
    exact of_decide_eq_true hfound
  rw [findCounterAndLimit] at hfound
  split at hfound
  · rename_i lhs rhs htest
    split at hfound
    · rename_i i hi
      cases some.inj hfound
      exact .inl (by rw [htest, hat lhs hi])
    · obtain ⟨i, hi, hpair⟩ := map_eq_some_iff.mp hfound
      cases hpair
      exact .inr (by rw [htest, hat rhs hi])
  · cases hfound

section

variable {env σ e : V → Val α} {k : Nat} {c : Carried V} {v : V} {type : TensorType}

section

variable (hw : w.WellFormed) (henv : w.Holds env) (htyped : WellTyped w typeOf env)
  (hc : c ∈ w.loop.carried) (hadded : addedTo w c = some v) (hout : w.definedOutside v = true)
  (htype : typeOf v = some type)

include hw henv htyped hc hadded hout htype

theorem eval_added (hσ : w.loop.entering (semantics α) env k = some σ) (he : w.loop.bodyEnv (semantics α) σ = some e) :
    (Op.add type.element).eval [σ c.result, env v] = some (e c.yield) := by
  rw [addedTo] at hadded
  split at hadded
  · rename_i element lhs rhs hdef
    have heval := WhileOp.eval_definingOp hw henv hw.body_ordered he (fun v => WhileOp.bodyEnv_outside hσ he) hdef
    obtain ⟨shape, -, hlhs, hrhs⟩ := htyped.add _ _ _ _ hdef
    rw [map_cons, map_singleton] at heval
    have harg := WhileOp.bodyEnv_bodyArg hw he hc
    split at hadded
    · rename_i hl
      cases hadded
      rw [htype] at hrhs
      cases hrhs
      rwa [hl, harg, WhileOp.bodyEnv_outside hσ he hout] at heval
    · split at hadded
      · rename_i hr
        cases hadded
        rw [htype] at hlhs
        cases hlhs
        rwa [hr, harg, WhileOp.bodyEnv_outside hσ he hout, eval_add_comm] at heval
      · cases hadded
  · cases hadded

theorem entering_added {i d : List Nat → Int} (hinit : env c.operand = ofInts type.shape i)
    (hfit : ∀ idx ∈ indices type.shape, type.element.wrap (i idx) = i idx) (hd : env v = ofInts type.shape d)
    (hσ : w.loop.entering (semantics α) env k = some σ) :
    σ c.result = ofInts type.shape fun idx => type.element.wrap (i idx + k * d idx) := by
  induction k generalizing σ with
  | zero =>
    cases hσ
    rw [WhileOp.start_result hw hc, hinit]
    refine ofInts_congr fun idx hidx => ?_
    rw [Nat.cast_zero, Int.zero_mul, Int.add_zero, hfit idx hidx]
  | succ k ih =>
    obtain ⟨σ₀, hσ₀, -, hnext⟩ := Loop.entering_succ_eq_some.mp hσ
    obtain ⟨e, he, -⟩ := map_eq_some_iff.mp hnext
    have hadd := eval_added hw henv htyped hc hadded hout htype hσ₀ he
    rw [ih hσ₀, hd] at hadd
    have hsum : arith (fun a b => some (type.element.wrap (a + b)))
        (ofInts type.shape fun idx => type.element.wrap (i idx + k * d idx)) (ofInts type.shape d) =
          some (ofInts type.shape fun idx => type.element.wrap (i idx + (k + 1 : Nat) * d idx) : Val α) := by
      refine arith_eq_ofInts fun idx _ => congrArg some ?_
      rw [IntType.wrap_wrap_add]
      push_cast
      ring_nf
    rw [WhileOp.next_result hw he hnext hc]
    exact some.inj (hadd.symm.trans hsum)

end

end

/-! ### The trip count -/

theorem tdiv_eq_zero_iff {x c : Int} (hc : c ≠ 0) : x.tdiv c = 0 ↔ |x| < |c| := by
  rw [← Int.natAbs_eq_zero, Int.natAbs_tdiv]
  change x.natAbs / c.natAbs = 0 ↔ _
  rw [Nat.div_eq_zero_iff, or_iff_right (Int.natAbs_ne_zero.mpr hc), Int.abs_eq_natAbs, Int.abs_eq_natAbs, Nat.cast_lt]

/-- After `n` iterations towards a limit at a distance the division gives what has been added, if the limit is
reached exactly, or nothing is added, or the limit was passed before. -/
theorem tdiv_eq_iff {n : Nat} {distance c d : Int} (hend : distance ≤ n * c) (hgoes : ∀ k < n, k * c < distance)
    (hc : c ≠ 0) : (distance * d).tdiv c = n * d ↔
      d = 0 ∨ (0 ≤ distance ∧ c ∣ distance) ∨ (distance < 0 ∧ |distance * d| < |c|) := by
  by_cases hd : d = 0
  · simp [hd]
  rw [or_iff_right hd]
  rcases eq_zero_or_pos n with rfl | hpos
  · rw [Nat.cast_zero, Int.zero_mul] at hend
    rw [Nat.cast_zero, Int.zero_mul, tdiv_eq_zero_iff hc]
    rcases hend.eq_or_lt with rfl | hneg
    · simp [hc]
    · simp [hneg, hneg.not_ge]
  · have hdistance : 0 < distance := by simpa using hgoes 0 hpos
    have hcpos : 0 < c := pos_of_mul_pos_right (hdistance.trans_le hend) (Int.natCast_nonneg n)
    rw [and_iff_right hdistance.le, or_iff_left fun h => absurd h.1 hdistance.not_gt]
    constructor
    · intro hdiv
      have hmod := Int.mul_tdiv_add_tmod (distance * d) c
      have hrest : (distance * d).tmod c = (distance - n * c) * d := by
        rw [hdiv] at hmod
        linear_combination hmod
      have hsign := Int.sign_tmod (distance * d) c
      rw [hrest, Int.sign_mul, Int.sign_mul, Int.sign_eq_one_of_pos hdistance, Int.one_mul] at hsign
      have hreached : distance - n * c = 0 := by
        have hd' : d.sign ≠ 0 := fun h => hd (Int.sign_eq_zero_iff_zero.mp h)
        split at hsign
        · exact Int.sign_eq_zero_iff_zero.mp ((mul_eq_zero.mp hsign).resolve_right hd')
        · -- the rest would have the sign of what is divided
          have hone := Int.sign_eq_one_iff_pos.mp ((mul_eq_right₀ hd').mp hsign)
          omega
      exact ⟨n, by linarith⟩
    · rintro ⟨m, rfl⟩
      have hnm : (n : Int) = m := by
        have hlow : c * m ≤ c * n := by rwa [Int.mul_comm c n]
        have hhigh := hgoes (n - 1) (Nat.sub_lt hpos one_pos)
        rw [Int.mul_comm _ c] at hhigh
        have h₁ := Int.le_of_mul_le_mul_left hlow hcpos
        have h₂ := Int.lt_of_mul_lt_mul_left hhigh hcpos.le
        omega
      rw [hnm, Int.mul_assoc, Int.mul_tdiv_cancel_left _ hc]

theorem tdiv_eq_of_dvd {modulus x y c n : Int} (hlt : |x - y| < modulus) (hy : y = n * c) (hc : c ≠ 0)
    (h : modulus ∣ x.tdiv c - n) : x.tdiv c = n := by
  have hmod := Int.mul_tdiv_add_tmod x c
  have hrest : |x.tmod c| < |c| := by
    rw [Int.abs_eq_natAbs, Int.abs_eq_natAbs, Nat.cast_lt]
    rw [Int.natAbs_tmod]
    exact Nat.mod_lt _ (Int.natAbs_pos.mpr hc)
  by_contra hne
  have hge : modulus ≤ |x.tdiv c - n| := Int.le_of_dvd (abs_pos.mpr (sub_ne_zero.mpr hne)) ((dvd_abs _ _).mpr h)
  have hdiff : x - y - x.tmod c = c * (x.tdiv c - n) := by
    rw [hy]
    linear_combination -hmod
  have habs : |c| * |x.tdiv c - n| ≤ |x - y| + |x.tmod c| := by
    rw [← abs_mul, ← hdiff]
    exact abs_sub _ _
  have hpos : 1 ≤ |c| := Int.one_le_abs hc
  have hmodulus : 1 ≤ modulus := Int.add_one_le_of_lt ((abs_nonneg _).trans_lt hlt)
  have hscaled : |c| * modulus ≤ |c| * |x.tdiv c - n| := mul_le_mul_of_nonneg_left hge (abs_nonneg c)
  have hproduct : 0 ≤ (|c| - 1) * (modulus - 1) := mul_nonneg (by omega) (by omega)
  linarith

/-! ### The values of a run -/

def element (env : V → Val α) (v : V) (idx : List Nat) : Int := ((env v).tensor.get idx).toInt.getD 0

def integer (env : V → Val α) (v : V) : Int := element env v []

namespace Counter

variable (counter : Counter V) (env : V → Val α)

def startValue : Int := integer env counter.value.operand

def stepValue : Int := integer env counter.step

/-- The counter is on the left of the comparison. -/
def onLeft (w : WhileOp α V) : Bool :=
  match w.getDefiningOp w.loop.condOps w.loop.test with
  | some (_, lhs :: _) => lhs = counter.value.condArg
  | _ => false

def distance : Int := integer env counter.limit - counter.startValue env

/-- How far the counter is from the limit in the direction in which the loop ends. -/
def towards (w : WhileOp α V) (n : Int) : Int := if counter.onLeft w then n else -n

end Counter

variable (w typeOf) in
/-- The distance from the start can be represented in the types, also scaled by the steps. -/
def Representable (counter : Counter V) (env : V → Val α) (offset : Int) : Prop :=
  counter.type.element.wrap offset = offset ∧ ∀ c ∈ candidates w typeOf, c.type.element.wrap offset = offset ∧
    ∀ idx ∈ indices c.type.shape,
      c.type.element.wrap (offset * element env c.step idx) = offset * element env c.step idx

variable (w typeOf) in
/-- Nothing overflows in `n` iterations. -/
structure NoOverflow (counter : Counter V) (env : V → Val α) (n : Nat) : Prop where
  values : ∀ k ≤ n, counter.type.element.wrap (counter.startValue env + k * counter.stepValue env) =
    counter.startValue env + k * counter.stepValue env
  iterations : ∀ k ≤ n, Representable w typeOf counter env (k * counter.stepValue env)
  distance : Representable w typeOf counter env (counter.distance env)
  step : ∀ c ∈ candidates w typeOf, c.type.element.wrap (counter.stepValue env) = counter.stepValue env

variable (w typeOf) in
/-- The limit is reached exactly, or the value does not change, or the limit is behind the start, by less than what
the division leaves. -/
def ResultExact (counter : Counter V) (resultUsed : V → Bool) (env : V → Val α) : Prop :=
  ∀ c ∈ replacedAfter w typeOf resultUsed, ∀ idx ∈ indices c.type.shape,
    let distance := counter.towards w (counter.distance env)
    counter.stepValue env ≠ 0 ∧ (element env c.step idx = 0 ∨ (0 ≤ distance ∧ counter.stepValue env ∣ distance) ∨
      (distance < 0 ∧ |distance * element env c.step idx| < |counter.stepValue env|))

instance (counter : Counter V) (env : V → Val α) (offset : Int) :
    Decidable (Representable w typeOf counter env offset) := inferInstanceAs (Decidable (_ ∧ _))

instance (counter : Counter V) (resultUsed : V → Bool) (env : V → Val α) :
    Decidable (ResultExact w typeOf counter resultUsed env) :=
  inferInstanceAs (Decidable (∀ c ∈ _, ∀ idx ∈ _, _ ∧ (_ ∨ (_ ∧ _) ∨ (_ ∧ _))))

section

variable {env σ e : V → Val α} {k n : Nat} {counter : Counter V} {c : Candidate V}

variable {v : V} {type : TensorType}

theorem eq_ofInts_element (htyped : WellTyped w typeOf env) (hout : w.definedOutside v = true)
    (htype : typeOf v = some type) : env v = ofInts type.shape (element env v) ∧
      ∀ idx ∈ indices type.shape, type.element.wrap (element env v idx) = element env v idx := by
  obtain ⟨f, hf, hfit⟩ := exists_ofInts (htyped.outside v type hout htype)
  have helement : ∀ idx ∈ indices type.shape, element env v idx = f idx := by
    intro idx hidx
    rw [element, hf, get_ofInts hidx]
    rfl
  refine ⟨hf.trans (ofInts_congr fun idx hidx => (helement idx hidx).symm), fun idx hidx => ?_⟩
  rw [helement idx hidx, hfit idx hidx]

theorem typeOf_added {c : Carried V} (htyped : WellTyped w typeOf env) (hc : c ∈ w.loop.carried)
    (hadded : addedTo w c = some v) : typeOf v = typeOf c.operand := by
  rw [addedTo] at hadded
  split at hadded
  · rename_i element lhs rhs hdef
    obtain ⟨shape, hres, hlhs, hrhs⟩ := htyped.add _ _ _ _ hdef
    rw [← (htyped.carried c hc).2.2, hres]
    split at hadded
    · exact some.inj hadded ▸ hrhs
    · split at hadded
      · exact some.inj hadded ▸ hlhs
      · cases hadded
  · cases hadded

theorem counter_types (htyped : WellTyped w typeOf env) (hcounter : IsCounter w typeOf counter) :
    counter.type.shape = [] ∧ typeOf counter.limit = some counter.type ∧ typeOf counter.step = some counter.type := by
  have hmem : counter.value ∈ w.loop.carried := mem_of_getElem? hcounter.getElem_index
  obtain ⟨hcond, -, -⟩ := htyped.carried _ hmem
  rw [hcounter.typeOf_start] at hcond
  have hstep := (typeOf_added htyped hmem hcounter.added).trans hcounter.typeOf_start
  rcases hcounter.test with htest | htest
  · obtain ⟨type, harg, hlimit⟩ := htyped.compare _ _ _ htest
    rw [hcond] at harg
    exact ⟨some.inj harg ▸ rfl, hlimit.trans harg.symm, hstep⟩
  · obtain ⟨type, hlimit, harg⟩ := htyped.compare _ _ _ htest
    rw [hcond] at harg
    exact ⟨some.inj harg ▸ rfl, hlimit.trans harg.symm, hstep⟩

theorem eq_ofInt_integer (htyped : WellTyped w typeOf env) (hout : w.definedOutside v = true)
    (htype : typeOf v = some type) (hshape : type.shape = []) : env v = ofInt (integer env v) := by
  rw [(eq_ofInts_element htyped hout htype).1, hshape, ← ofInts_nil]
  refine ofInts_congr fun idx hidx => ?_
  rw [mem_indices_nil.mp hidx, integer]

section

variable (hw : w.WellFormed) (henv : w.Holds env) (htyped : WellTyped w typeOf env)
  (hcounter : IsCounter w typeOf counter) (hout : w.definedOutside counter.step = true)
  (hfits : NoOverflow w typeOf counter env n)

include hw henv htyped hcounter hout hfits

theorem entering_counter (hk : k ≤ n) (hσ : w.loop.entering (semantics α) env k = some σ) :
    σ counter.value.result = ofInt (counter.startValue env + k * counter.stepValue env) := by
  have hmem : counter.value ∈ w.loop.carried := mem_of_getElem? hcounter.getElem_index
  obtain ⟨hshape, -, hstep⟩ := counter_types htyped hcounter
  obtain ⟨hinit, hfit⟩ := eq_ofInts_element htyped (hw.operand_outside _ hmem) hcounter.typeOf_start
  rw [entering_added hw henv htyped hmem hcounter.added hout hstep hinit hfit
    (eq_ofInts_element htyped hout hstep).1 hσ, hshape, ← ofInts_nil]
  refine ofInts_congr fun idx hidx => ?_
  rw [mem_indices_nil.mp hidx]
  exact hfits.values k hk

theorem continues_eq (hk : k ≤ n) (hσ : w.loop.entering (semantics α) env k = some σ) {b : Bool}
    (hb : w.loop.continues (semantics α) σ = some b) :
    b = decide (k * counter.towards w (counter.stepValue env) < counter.towards w (counter.distance env)) := by
  have hmem : counter.value ∈ w.loop.carried := mem_of_getElem? hcounter.getElem_index
  obtain ⟨hshape, hlimit, -⟩ := counter_types htyped hcounter
  obtain ⟨e, he, htest⟩ := bind_eq_some_iff.mp hb
  have hcondArg : e counter.value.condArg = ofInt (counter.startValue env + k * counter.stepValue env) := by
    rw [WhileOp.condEnv_condArg hw he hmem, entering_counter hw henv htyped hcounter hout hfits hk hσ]
  have hlimitValue : e counter.limit = ofInt (integer env counter.limit) := by
    rw [WhileOp.condEnv_outside hσ he hcounter.limit_outside,
      ← eq_ofInt_integer htyped hcounter.limit_outside hlimit hshape]
  change toPred (e w.loop.test) = some b at htest
  rcases hcounter.test with hdef | hdef
  · have hleft : counter.onLeft w = true := by
      rw [Counter.onLeft, hdef]
      exact decide_eq_true rfl
    have heval := WhileOp.eval_definingOp hw henv hw.cond_ordered he (fun v => WhileOp.condEnv_outside hσ he) hdef
    rw [map_cons, map_singleton, hcondArg, hlimitValue] at heval
    rw [← some.inj heval] at htest
    rw [← some.inj htest, Counter.towards, Counter.towards, if_pos hleft, if_pos hleft, Counter.distance]
    refine decide_eq_decide.mpr ?_
    omega
  · have hleft : counter.onLeft w = false := by
      rw [Counter.onLeft, hdef]
      exact decide_eq_false (WhileOp.condArg_ne hcounter.limit_outside hmem).symm
    have heval := WhileOp.eval_definingOp hw henv hw.cond_ordered he (fun v => WhileOp.condEnv_outside hσ he) hdef
    rw [map_cons, map_singleton, hcondArg, hlimitValue] at heval
    rw [← some.inj heval] at htest
    rw [← some.inj htest, Counter.towards, Counter.towards, hleft, if_neg Bool.false_ne_true,
      if_neg Bool.false_ne_true, Counter.distance, Int.mul_neg]
    refine decide_eq_decide.mpr ?_
    omega

theorem trip (hexits : w.loop.exits (semantics α) env n = some σ) :
    counter.towards w (counter.distance env) ≤ n * counter.towards w (counter.stepValue env) ∧
      ∀ k < n, k * counter.towards w (counter.stepValue env) < counter.towards w (counter.distance env) := by
  obtain ⟨hend, hfalse⟩ := Loop.exits_eq_some.mp hexits
  refine ⟨?_, fun k hk => ?_⟩
  · have h := continues_eq hw henv htyped hcounter hout hfits le_rfl hend hfalse
    exact not_lt.mp (of_decide_eq_false h.symm)
  · obtain ⟨σ₀, -, hσ₀, htrue, -⟩ := Loop.exists_executed hend hk
    exact of_decide_eq_true (continues_eq hw henv htyped hcounter hout hfits hk.le hσ₀ htrue).symm

end

theorem run_expression (name : Part → Name V) (hname : Function.Injective name) (hfresh : ∀ part v, name part ≠ .old v)
    (hw : w.WellFormed) (htyped : WellTyped w typeOf env) (hcounter : IsCounter w typeOf counter)
    (hout : w.definedOutside counter.step = true) (hc : c ∈ candidates w typeOf)
    (hstep : w.definedOutside c.step = true) (htype : typeOf c.value.operand = some c.type)
    (hdivisor : c.type.element.wrap (counter.stepValue env) = counter.stepValue env) {offset : Int}
    (hoffset : Representable w typeOf counter env offset) {current : Name V} {e : Name V → Val α}
    (hold : ∀ v, w.definedOutside v = true → e (.old v) = env v)
    (hcurrent : e current = ofInt (counter.startValue env + offset)) {z : Val α} :
    (∃ e', run (semantics α) (closedForm name counter.type c.type current (.old counter.value.operand)
        (.old c.value.operand) (.old c.step) (.old counter.step)) e = some e' ∧ e' (name .replacement) = z) ↔
      (∀ idx ∈ indices c.type.shape, counter.stepValue env ≠ 0) ∧ z = ofInts c.type.shape fun idx =>
        c.type.element.wrap (element env c.value.operand idx + c.type.element.wrap
          ((offset * element env c.step idx).tdiv (counter.stepValue env))) := by
  have hmem : counter.value ∈ w.loop.carried := mem_of_getElem? hcounter.getElem_index
  obtain ⟨hshape, -, hstepType⟩ := counter_types htyped hcounter
  have hstart : e (.old counter.value.operand) = ofInt (counter.startValue env) := by
    rw [hold _ (hw.operand_outside _ hmem)]
    exact eq_ofInt_integer htyped (hw.operand_outside _ hmem) hcounter.typeOf_start hshape
  have hcounterStep : e (.old counter.step) = ofInt (counter.stepValue env) := by
    rw [hold _ hout]
    exact eq_ofInt_integer htyped hout hstepType hshape
  have hinit : e (.old c.value.operand) = ofInts c.type.shape (element env c.value.operand) := by
    rw [hold _ (hw.operand_outside _ (mem_of_candidates hc))]
    exact (eq_ofInts_element htyped (hw.operand_outside _ (mem_of_candidates hc)) htype).1
  have hadded : e (.old c.step) = ofInts c.type.shape (element env c.step) := by
    rw [hold _ hstep]
    exact (eq_ofInts_element htyped hstep (of_mem_candidates hc).2.2.2).1
  obtain ⟨hrange, hrange'⟩ := hoffset
  obtain ⟨hsized, hscaled⟩ := hrange' c hc
  have hsub : counter.startValue env + offset - counter.startValue env = offset := by omega
  have h := run_closedForm (z := z) hname
    (fun part => ⟨hfresh part _, hfresh part _, hfresh part _⟩) hshape hcurrent hstart hcounterStep hinit hadded
    (by rwa [hsub]) (by rwa [hsub]) hdivisor (by rwa [hsub])
  rwa [hsub] at h

end

section

variable {env σ : V → Val α} {k n : Nat} {counter : Counter V} {c : Candidate V} {resultUsed : V → Bool}

theorem towards_tdiv (d : Int) : (counter.towards w (counter.distance env) * d).tdiv
    (counter.towards w (counter.stepValue env)) = (counter.distance env * d).tdiv (counter.stepValue env) := by
  rw [Counter.towards, Counter.towards]
  split
  · rfl
  · rw [Int.neg_mul, Int.neg_tdiv, Int.tdiv_neg, Int.neg_neg]

variable {m : Int} {e : Name V → Val α}

theorem towards_ne_zero : counter.towards w m ≠ 0 ↔ m ≠ 0 := by
  rw [Counter.towards]
  split
  · rfl
  · exact neg_ne_zero

theorem towards_dvd {x : Int} : counter.towards w m ∣ x ↔ m ∣ x := by
  rw [Counter.towards]
  split
  · rfl
  · exact neg_dvd

theorem abs_towards : |counter.towards w m| = |m| := by
  rw [Counter.towards]
  split
  · rfl
  · exact abs_neg m

variable (hw : w.WellFormed) (henv : w.Holds env) (htyped : WellTyped w typeOf env)
  (hcounter : IsCounter w typeOf counter) (hout : w.definedOutside counter.step = true)
  (hsteps : ∀ c ∈ candidates w typeOf, w.definedOutside c.step = true) (hfits : NoOverflow w typeOf counter env n)

include hw henv htyped hsteps

theorem entering_candidate (hc : c ∈ candidates w typeOf) (hσ : w.loop.entering (semantics α) env k = some σ) :
    σ c.value.result = ofInts c.type.shape fun idx =>
      c.type.element.wrap (element env c.value.operand idx + k * element env c.step idx) := by
  obtain ⟨-, hadded, -, htype⟩ := of_mem_candidates hc
  have hmem := mem_of_candidates hc
  obtain ⟨hinit, hfit⟩ := eq_ofInts_element htyped (hw.operand_outside _ hmem)
    ((typeOf_added htyped hmem hadded).symm.trans htype)
  exact entering_added hw henv htyped hmem hadded (hsteps c hc) htype hinit hfit
    (eq_ofInts_element htyped (hsteps c hc) htype).1 hσ

include hcounter hout hfits

theorem run_bodyReplacement (hexits : w.loop.exits (semantics α) env n = some σ) {σ : V → Val α} (hk : k < n)
    (hσ : w.loop.entering (semantics α) env k = some σ) (hc : c ∈ candidates w typeOf)
    (hold : ∀ v, w.definedOutside v = true → e (.old v) = env v)
    (hcurrent : e (.old counter.value.bodyArg) = σ counter.value.result) :
    ∃ e', run (semantics α) (bodyReplacement counter c) e = some e' ∧
      e' (.inBody c.value.bodyArg .replacement) = σ c.value.result := by
  obtain ⟨-, hadded, -, htype⟩ := of_mem_candidates hc
  obtain ⟨hend, hgoes⟩ := trip hw henv htyped hcounter hout hfits hexits
  have hzero : counter.stepValue env ≠ 0 := by
    rintro hzero
    have hlast := hgoes k hk
    have htowards : counter.towards w (counter.stepValue env) = 0 := by
      rw [← not_ne_iff, towards_ne_zero, not_ne_iff, hzero]
    rw [htowards, Int.mul_zero] at hlast hend
    exact absurd hlast (not_lt.mpr hend)
  rw [entering_counter hw henv htyped hcounter hout hfits hk.le hσ] at hcurrent
  refine (run_expression (Name.inBody c.value.bodyArg) (fun _ _ h => (Name.inBody.inj h).2) (fun _ _ => nofun) hw htyped hcounter hout hc
    (hsteps c hc) ((typeOf_added htyped (mem_of_candidates hc) hadded).symm.trans htype) (hfits.step c hc)
    (hfits.iterations k hk.le) hold hcurrent).mpr ⟨fun _ _ => hzero, ?_⟩
  rw [entering_candidate hw henv htyped hsteps hc hσ]
  refine ofInts_congr fun idx _ => ?_
  rw [Int.mul_right_comm, Int.mul_tdiv_cancel _ hzero, IntType.wrap_add_wrap]

/-- After the loop it is exact where the division gives what has been added. -/
theorem run_resultReplacement_iff (hexits : w.loop.exits (semantics α) env n = some σ)
    (hc : c ∈ candidates w typeOf) (hold : ∀ v, w.definedOutside v = true → e (.old v) = env v) :
    (∃ e', run (semantics α) (resultReplacement counter c) e = some e' ∧
      e' (.after c.value.result .replacement) = σ c.value.result) ↔
    ∀ idx ∈ indices c.type.shape, counter.stepValue env ≠ 0 ∧ (element env c.step idx = 0 ∨
      (0 ≤ counter.towards w (counter.distance env) ∧
        counter.stepValue env ∣ counter.towards w (counter.distance env)) ∨
      (counter.towards w (counter.distance env) < 0 ∧
        |counter.towards w (counter.distance env) * element env c.step idx| < |counter.stepValue env|)) := by
  obtain ⟨-, hadded, -, htype⟩ := of_mem_candidates hc
  obtain ⟨hend, hgoes⟩ := trip hw henv htyped hcounter hout hfits hexits
  obtain ⟨hshape, hlimit, -⟩ := counter_types htyped hcounter
  have hcurrent : e (.old counter.limit) = ofInt (counter.startValue env + counter.distance env) := by
    rw [hold _ hcounter.limit_outside, eq_ofInt_integer htyped hcounter.limit_outside hlimit hshape, Counter.distance]
    exact congrArg ofInt (by omega)
  have h := run_expression (z := σ c.value.result) (Name.after c.value.result)
    (fun _ _ h => (Name.after.inj h).2) (fun _ _ => nofun) hw htyped hcounter hout hc (hsteps c hc)
    ((typeOf_added htyped (mem_of_candidates hc) hadded).symm.trans htype) (hfits.step c hc) hfits.distance hold
    hcurrent
  rw [resultReplacement, h, entering_candidate hw henv htyped hsteps hc
    (Loop.exits_eq_some.mp hexits).1, ofInts_inj, ← forall₂_and]
  refine forall₂_congr fun idx hidx => and_congr_right fun hzero => ?_
  have hdiv := tdiv_eq_iff (d := element env c.step idx) hend hgoes (towards_ne_zero.mpr hzero)
  rw [towards_tdiv, towards_dvd, abs_towards] at hdiv
  rw [← hdiv, IntType.wrap_add_wrap, IntType.wrap_eq_wrap_iff]
  constructor
  · intro hdvd
    refine tdiv_eq_of_dvd (y := n * counter.stepValue env * element env c.step idx)
      (IntType.abs_sub_lt (((hfits.distance).2 c hc).2 idx hidx) (((hfits.iterations n le_rfl).2 c hc).2 idx hidx))
      (Int.mul_right_comm ..) hzero ?_
    rw [← Int.dvd_neg]
    convert hdvd using 1
    ring
  · intro heq
    rw [heq, sub_self]
    exact Int.dvd_zero _

end

/-! ### The loop -/

section

variable {env σ : V → Val α} {k n : Nat} {counter : Counter V} {c : Candidate V} {resultUsed : V → Bool}
  {p : Program (Op α) (Name V)}

variable (w typeOf) in
/-- Where the uses of the values are. -/
def uses (counter : Counter V) (resultUsed : V → Bool) : Uses V (Name V) :=
  ⟨.old, inBody w typeOf counter, afterLoop w typeOf resultUsed⟩

theorem matchAndRewrite_eq (h : matchAndRewrite w typeOf resultUsed = some p)
    (hcounter : findCounter w typeOf = some counter) :
    p = ⟨[], ⟨w.loop.carried.map fun c => { c.map .old with yield := inBody w typeOf counter c.yield },
      w.loop.condOps.map (Instr.rename .old .old), .old w.loop.test,
      (replacedInBody w typeOf counter).reverse.flatMap (bodyReplacement counter) ++
        w.loop.bodyOps.map (Instr.rename .old (inBody w typeOf counter))⟩,
    (replacedAfter w typeOf resultUsed).reverse.flatMap (resultReplacement counter)⟩ := by
  rw [matchAndRewrite, hcounter, bind_eq_bind, bind_some] at h
  obtain ⟨_, -, h⟩ := bind_eq_some_iff.mp h
  exact (some.inj h).symm

omit [DecidableEq V] in
theorem pairwise_reverse {l : List (Candidate V)} {arg : Candidate V → V} (h : (l.map arg).Nodup) :
    l.reverse.Pairwise fun p q => arg q ≠ arg p :=
  List.pairwise_reverse.mpr (pairwise_map.mp h)

variable {j : Instr (Op α) (Name V)}

omit [DecidableEq V] in
theorem not_old_bodyReplacement (hj : j ∈ bodyReplacement counter c) : ¬∃ v, j.result = .old v := by
  obtain ⟨part, hpart⟩ := result_closedForm hj
  rw [hpart]
  exact fun ⟨_, h⟩ => nomatch h

omit [DecidableEq V] in
theorem not_old_resultReplacement (hj : j ∈ resultReplacement counter c) : ¬∃ v, j.result = .old v := by
  obtain ⟨part, hpart⟩ := result_closedForm hj
  rw [hpart]
  exact fun ⟨_, h⟩ => nomatch h

theorem pairwise_bodyReplacement (hw : w.WellFormed) :
    (replacedInBody w typeOf counter).reverse.Pairwise fun p q => ∀ j ∈ bodyReplacement (α := α) counter q,
      j.result ≠ .inBody p.value.bodyArg .replacement := by
  refine (pairwise_reverse (nodup_candidates hw.nodup_bodyArg)).imp fun hne j hj heq => ?_
  obtain ⟨part, hpart⟩ := result_closedForm hj
  exact hne (Name.inBody.inj (hpart.symm.trans heq)).1

theorem pairwise_resultReplacement (hw : w.WellFormed) :
    (replacedAfter w typeOf resultUsed).reverse.Pairwise fun p q => ∀ j ∈ resultReplacement (α := α) counter q,
      j.result ≠ .after p.value.result .replacement := by
  refine (pairwise_reverse (nodup_candidates hw.nodup_result)).imp fun hne j hj heq => ?_
  obtain ⟨part, hpart⟩ := result_closedForm hj
  exact hne (Name.after.inj (hpart.symm.trans heq)).1

theorem mem_of_replacedInBody (hc : c ∈ replacedInBody w typeOf counter) : c ∈ candidates w typeOf :=
  (mem_filter.mp hc).1

theorem mem_of_replacedAfter (hc : c ∈ replacedAfter w typeOf resultUsed) : c ∈ candidates w typeOf :=
  (mem_filter.mp hc).1

theorem inBody_of_mem (hw : w.WellFormed) (hc : c ∈ replacedInBody w typeOf counter) :
    inBody w typeOf counter c.value.bodyArg = .inBody c.value.bodyArg .replacement :=
  assign_of_mem (nodup_candidates hw.nodup_bodyArg) hc

theorem inBody_of_ne {v : V} (hv : ∀ c ∈ replacedInBody w typeOf counter, c.value.bodyArg ≠ v) :
    inBody w typeOf counter v = .old v := assign_of_ne hv

theorem afterLoop_of_mem (hw : w.WellFormed) (hc : c ∈ replacedAfter w typeOf resultUsed) :
    afterLoop w typeOf resultUsed c.value.result = .after c.value.result .replacement :=
  assign_of_mem (nodup_candidates hw.nodup_result) hc

theorem afterLoop_of_ne {v : V} (hv : ∀ c ∈ replacedAfter w typeOf resultUsed, c.value.result ≠ v) :
    afterLoop w typeOf resultUsed v = .old v := assign_of_ne hv

omit [DecidableEq V] in
theorem old_injective : Function.Injective (Name.old : V → Name V) := fun _ _ => Name.old.inj

variable (hw : w.WellFormed) (henv : w.Holds env) (htyped : WellTyped w typeOf env)
  (h : matchAndRewrite w typeOf resultUsed = some p) (hfind : findCounter w typeOf = some counter)
  (hout : w.definedOutside counter.step = true)
  (hsteps : ∀ c ∈ candidates w typeOf, w.definedOutside c.step = true) (hfits : NoOverflow w typeOf counter env n)
  (hexits : w.loop.exits (semantics α) env n = some σ) {env' : Name V → Val α} (henv' : ∀ v, env' (.old v) = env v)

include hw henv htyped h hfind hout hsteps hfits hexits henv'

/-- If the results are as they were, the expressions in the limit are exact. -/
theorem resultExact_of_preservesTo
    (hpreserves : PreservesTo (semantics α) w.loop p (uses w typeOf counter resultUsed) env env' n) :
    ResultExact w typeOf counter resultUsed env := by
  obtain rfl := matchAndRewrite_eq h hfind
  obtain ⟨τ', hτ', hsame⟩ := hpreserves.exits n le_rfl σ hexits
  obtain ⟨e, he, hτ'⟩ := bind_eq_some_iff.mp hτ'
  cases he
  obtain ⟨τ, hτ, hafter⟩ := bind_eq_some_iff.mp hτ'
  have hold : ∀ v, w.definedOutside v = true → τ (.old v) = env v := by
    intro v hv
    rw [Loop.entering_outside (Loop.exits_eq_some.mp hτ).1 fun c hc => ?_, henv']
    obtain ⟨c', hc', rfl⟩ := mem_map.mp hc
    exact fun heq => WhileOp.result_ne hv hc' (Name.old.inj heq)
  intro c hc
  obtain ⟨e₀, e₁, hkeep, hrun, hval⟩ : ∃ e₀ e₁, (∀ x, (∃ v, x = Name.old v) → e₀ x = τ x) ∧
      run (semantics α) (resultReplacement counter c) e₀ = some e₁ ∧
        e₁ (.after c.value.result .replacement) = τ' (.after c.value.result .replacement) :=
    exists_of_run_flatMap (fun c _ j hj => not_old_resultReplacement hj) (pairwise_resultReplacement hw) hafter
      (mem_reverse.mpr hc)
  refine (run_resultReplacement_iff hw henv htyped (isCounter_of_findCounter hfind) hout hsteps hfits hexits
    (mem_of_replacedAfter hc) fun v hv => (hkeep _ ⟨v, rfl⟩).trans (hold v hv)).mp ⟨e₁, hrun, ?_⟩
  have hres := hsame c.value.result
  change τ' (afterLoop w typeOf resultUsed c.value.result) = _ at hres
  rw [afterLoop_of_mem hw hc] at hres
  exact hval.trans hres

/-- With exact expressions all values are as they were. -/
theorem preservesTo_of_resultExact (hexact : ResultExact w typeOf counter resultUsed env) :
    PreservesTo (semantics α) w.loop p (uses w typeOf counter resultUsed) env env' n := by
  have hcounter := isCounter_of_findCounter hfind
  have hmem : counter.value ∈ w.loop.carried := mem_of_getElem? hcounter.getElem_index
  obtain rfl := matchAndRewrite_eq h hfind
  refine preservesTo_of_simulates (R := fun _ σ τ => ∀ v, τ (.old v) = σ v) rfl ?_ ?_ ?_ ?_
  · exact assign_rename old_injective (fun _ => rfl) (fun c _ => henv' c.operand) henv'
  · intro k _ σ τ e hσ hτ he
    set e₀ := Straightline.assign (w.loop.carried.map fun c =>
        { c.map Name.old with yield := inBody w typeOf counter c.yield })
      Carried.condArg (fun c => τ c.result) τ with he₀
    have hargs : ∀ v, e₀ (.old v) = Straightline.assign w.loop.carried Carried.condArg (fun c => σ c.result) σ v :=
      assign_rename old_injective (fun _ => rfl) (fun c _ => hτ c.result) hτ
    obtain ⟨e', he', hagree⟩ : ∃ e', run (semantics α) (w.loop.condOps.map (Instr.rename Name.old Name.old)) e₀ =
        some e' ∧ ∀ v, True → e' (.old v) = e v :=
      run_rename (fun _ _ _ _ => trivial) (fun _ _ _ _ => ⟨Name.old.inj, congrArg Name.old⟩) (fun v _ => hargs v) he
    exact ⟨e', he', hagree _ trivial, fun v _ => hagree v trivial⟩
  · intro k hk σ τ e hσ hτ htrue he
    have hlt : k < n := by
      refine hk.lt_of_ne fun heq => ?_
      subst heq
      obtain ⟨hσ', hfalse⟩ := Loop.exits_eq_some.mp hexits
      rw [hσ] at hσ'
      rw [← some.inj hσ', htrue] at hfalse
      cases hfalse
    set e₀ := Straightline.assign (w.loop.carried.map fun c =>
        { c.map Name.old with yield := inBody w typeOf counter c.yield })
      Carried.bodyArg (fun c => τ c.result) τ with he₀
    have hargs : ∀ v, e₀ (.old v) = Straightline.assign w.loop.carried Carried.bodyArg (fun c => σ c.result) σ v :=
      assign_rename old_injective (fun _ => rfl) (fun c _ => hτ c.result) hτ
    have houtside : ∀ v, w.definedOutside v = true → e₀ (.old v) = env v := fun v hv => by
      rw [hargs v, assign_of_ne fun c hc => WhileOp.bodyArg_ne hv hc, WhileOp.entering_outside hσ hv]
    have hcurrent : e₀ (.old counter.value.bodyArg) = σ counter.value.result := by
      rw [hargs, assign_of_mem hw.nodup_bodyArg hmem]
    -- the expressions give the values of the arguments that they replace
    obtain ⟨e₁, he₁, hold, hvals⟩ : ∃ e₁, run (semantics α)
        ((replacedInBody w typeOf counter).reverse.flatMap (bodyReplacement counter)) e₀ = some e₁ ∧
        (∀ x, (∃ v, x = Name.old v) → e₁ x = e₀ x) ∧ ∀ c ∈ (replacedInBody w typeOf counter).reverse,
          e₁ (.inBody c.value.bodyArg .replacement) = σ c.value.result := by
      refine exists_run_flatMap (fun c hc e he => ?_) (fun c _ j hj => not_old_bodyReplacement hj)
        (pairwise_bodyReplacement hw)
      exact run_bodyReplacement hw henv htyped hcounter hout hsteps hfits hexits hlt hσ
        (mem_of_replacedInBody (mem_reverse.mp hc)) (fun v hv => (he _ ⟨v, rfl⟩).trans (houtside v hv))
        ((he _ ⟨_, rfl⟩).trans hcurrent)
    have huse : ∀ v, e₁ (inBody w typeOf counter v) =
        Straightline.assign w.loop.carried Carried.bodyArg (fun c => σ c.result) σ v := by
      intro v
      by_cases hreplaced : ∃ c ∈ replacedInBody w typeOf counter, c.value.bodyArg = v
      · obtain ⟨c, hc, rfl⟩ := hreplaced
        rw [inBody_of_mem hw hc, hvals c (mem_reverse.mpr hc),
          assign_of_mem hw.nodup_bodyArg (mem_of_candidates (mem_of_replacedInBody hc))]
      · rw [inBody_of_ne fun c hc heq => hreplaced ⟨c, hc, heq⟩, hold _ ⟨v, rfl⟩, hargs]
    obtain ⟨e', he', hagree⟩ : ∃ e', run (semantics α)
        (w.loop.bodyOps.map (Instr.rename Name.old (inBody w typeOf counter))) e₁ = some e' ∧
        ∀ v, True → e' (inBody w typeOf counter v) = e v := by
      refine run_rename (fun _ _ _ _ => trivial) (fun j hj v _ => ?_) (fun v _ => huse v) he
      by_cases hreplaced : ∃ c ∈ replacedInBody w typeOf counter, c.value.bodyArg = v
      · obtain ⟨c, hc, rfl⟩ := hreplaced
        rw [inBody_of_mem hw hc]
        exact iff_of_false nofun (hw.bodyOp_ne_bodyArg hj (mem_of_candidates (mem_of_replacedInBody hc))).symm
      · rw [inBody_of_ne fun c hc heq => hreplaced ⟨c, hc, heq⟩]
        exact ⟨Name.old.inj, congrArg Name.old⟩
    refine ⟨e', ?_, fun v _ => hagree v trivial, fun _ => ?_⟩
    · rw [Loop.bodyEnv, run_append]
      exact (congrArg (fun o => bind o _) he₁).trans he'
    · exact assign_rename old_injective (fun _ => rfl) (fun c _ => hagree c.yield trivial) hτ
  · intro m hm σ' τ hσ' hτ
    obtain ⟨hend, hfalse⟩ := Loop.exits_eq_some.mp hσ'
    obtain rfl : m = n := by
      refine hm.eq_of_not_lt fun hlt => ?_
      obtain ⟨σ₀, -, hσ₀, htrue, -⟩ := Loop.exists_executed (Loop.exits_eq_some.mp hexits).1 hlt
      rw [hend] at hσ₀
      rw [← some.inj hσ₀, hfalse] at htrue
      cases htrue
    obtain rfl : σ' = σ := some.inj (hσ'.symm.trans hexits)
    obtain ⟨τ', hτ', hold, hvals⟩ : ∃ τ', run (semantics α)
        ((replacedAfter w typeOf resultUsed).reverse.flatMap (resultReplacement counter)) τ = some τ' ∧
        (∀ x, (∃ v, x = Name.old v) → τ' x = τ x) ∧ ∀ c ∈ (replacedAfter w typeOf resultUsed).reverse,
          τ' (.after c.value.result .replacement) = σ' c.value.result := by
      refine exists_run_flatMap (fun c hc e he => ?_) (fun c _ j hj => not_old_resultReplacement hj)
        (pairwise_resultReplacement hw)
      have hc := mem_reverse.mp hc
      exact (run_resultReplacement_iff hw henv htyped hcounter hout hsteps hfits hexits (mem_of_replacedAfter hc)
        fun v hv => by rw [he _ ⟨v, rfl⟩, hτ, WhileOp.entering_outside hend hv]).mpr (hexact c hc)
    refine ⟨τ', hτ', fun v => ?_⟩
    change τ' (afterLoop w typeOf resultUsed v) = _
    by_cases hreplaced : ∃ c ∈ replacedAfter w typeOf resultUsed, c.value.result = v
    · obtain ⟨c, hc, rfl⟩ := hreplaced
      rw [afterLoop_of_mem hw hc, hvals c (mem_reverse.mpr hc)]
    · rw [afterLoop_of_ne fun c hc heq => hreplaced ⟨c, hc, heq⟩, hold _ ⟨v, rfl⟩, hτ]

/-- In a loop that ends without an overflow, with steps from outside, all values are as they were if and only if the
expressions in the limit are exact. -/
theorem preservesTo_iff :
    PreservesTo (semantics α) w.loop p (uses w typeOf counter resultUsed) env env' n ↔
      ResultExact w typeOf counter resultUsed env :=
  ⟨resultExact_of_preservesTo hw henv htyped h hfind hout hsteps hfits hexits henv',
    preservesTo_of_resultExact hw henv htyped h hfind hout hsteps hfits hexits henv'⟩

end

/-! ### A counter with step two -/

namespace StepTwo

def loop : WhileOp Unit Nat where
  loop := ⟨[⟨0, 10, 20, 24, 30⟩, ⟨1, 11, 21, 25, 31⟩], [⟨15, .compare .LT, [10, 2]⟩], 15,
    [⟨24, .add ⟨64, false⟩, [20, 3]⟩, ⟨25, .add ⟨64, false⟩, [21, 4]⟩]⟩
  defs v := if v = 3 then some (.constant (ofInt 2), []) else if v = 4 then some (.constant (ofInt 3), []) else none

def i64 (_ : Nat) : Option TensorType := some ⟨⟨64, false⟩, []⟩

def counter : Counter Nat := ⟨0, 2, ⟨0, 10, 20, 24, 30⟩, 3, ⟨⟨64, false⟩, []⟩⟩

def values (limit : Int) (v : Nat) : Int := [0, 0, limit, 2, 3].getD v 0

def env (limit : Int) (v : Nat) : Val Unit := ofInt (values limit v)

def env' (limit : Int) : Name Nat → Val Unit
  | .old v => env limit v
  | _ => ofInt 0

theorem defs_eq {v : Nat} {op : Op Unit} {operands : List Nat} (h : loop.defs v = some (op, operands)) :
    operands = [] ∧ (v = 3 ∧ op = .constant (ofInt 2) ∨ v = 4 ∧ op = .constant (ofInt 3)) := by
  rw [loop] at h
  dsimp only at h
  split at h
  · cases some.inj h
    exact ⟨rfl, .inl ⟨‹_›, rfl⟩⟩
  · split at h
    · cases some.inj h
      exact ⟨rfl, .inr ⟨‹_›, rfl⟩⟩
    · cases h

theorem wellFormed : loop.WellFormed := by
  refine ⟨by decide, by decide, by decide, by decide, by decide, by decide, by decide, by decide, ?_⟩
  intro v op operands hv
  obtain ⟨rfl, hop⟩ := defs_eq hv
  refine ⟨?_, fun a ha => absurd ha not_mem_nil⟩
  rcases hop with ⟨rfl, -⟩ | ⟨rfl, -⟩
  · decide
  · decide

theorem holds (limit : Int) : loop.Holds (env limit) := by
  intro v op operands hv
  obtain ⟨rfl, ⟨rfl, rfl⟩ | ⟨rfl, rfl⟩⟩ := defs_eq hv
  · rfl
  · rfl

theorem wellTyped {limit : Int} (hlimit : IntType.wrap ⟨64, false⟩ limit = limit) :
    WellTyped loop i64 (env limit) := by
  refine ⟨fun v type a b hdef => ?_, fun _ _ _ _ => ⟨_, rfl, rfl⟩, fun _ _ => ⟨rfl, rfl, rfl⟩, fun v type _ htype => ?_⟩
  · refine ⟨[], ?_⟩
    rw [WhileOp.getDefiningOp] at hdef
    split at hdef
    · rename_i i hi
      obtain ⟨hop, -⟩ := Prod.mk.inj (some.inj hdef)
      have hmem : i ∈ loop.loop.bodyOps := mem_of_find?_eq_some hi
      have hall : ∀ i ∈ loop.loop.bodyOps, i.op = .add ⟨64, false⟩ := by
        simp [loop]
      rw [hall i hmem] at hop
      rw [← Op.add.inj hop]
      exact ⟨rfl, rfl, rfl⟩
    · obtain ⟨-, ⟨-, hop⟩ | ⟨-, hop⟩⟩ := defs_eq hdef
      · cases hop
      · cases hop
  · cases htype
    refine ⟨rfl, fun idx hidx => ⟨values limit v, ?_, ?_⟩⟩
    · rw [mem_indices_nil.mp hidx]
      rfl
    · rcases v with _ | _ | _ | _ | _ | v
      · rfl
      · rfl
      · exact hlimit
      · rfl
      · rfl
      · rfl

/-- Three iterations reach the limit 6. -/
theorem preservesTo_six : ∃ p, matchAndRewrite loop i64 (fun _ => true) = some p ∧
    PreservesTo (semantics Unit) loop.loop p (uses loop i64 counter fun _ => true) (env 6) (env' 6) 3 := by
  have hfires : (matchAndRewrite loop i64 fun _ => true).isSome := by decide +kernel
  have hends : (loop.loop.exits (semantics Unit) (env 6) 3).isSome := by decide +kernel
  obtain ⟨p, hp⟩ := isSome_iff_exists.mp hfires
  obtain ⟨σ, hσ⟩ := isSome_iff_exists.mp hends
  have hfits : NoOverflow loop i64 counter (env 6) 3 :=
    ⟨by decide +kernel, by decide +kernel, by decide +kernel, by decide +kernel⟩
  exact ⟨p, hp, (preservesTo_iff wellFormed (holds 6) (wellTyped (by decide)) hp rfl (by decide +kernel)
    (by decide +kernel) hfits hσ fun _ => rfl).mpr (by decide +kernel)⟩

/-- They go past the limit 5, and the expressions give 5 for the counter and 7 for the sum. -/
theorem not_preservesTo_five : ∃ p σ, matchAndRewrite loop i64 (fun _ => true) = some p ∧ loop.WellFormed ∧
    loop.Holds (env 5) ∧ WellTyped loop i64 (env 5) ∧ loop.loop.exits (semantics Unit) (env 5) 3 = some σ ∧
      ¬PreservesTo (semantics Unit) loop.loop p (uses loop i64 counter fun _ => true) (env 5) (env' 5) 3 := by
  have hresults : (loop.loop.exits (semantics Unit) (env 5) 3).map (fun σ => (toInt (σ 30), toInt (σ 31))) =
      some (some 6, some 9) := by decide +kernel
  have hexpressions : ((matchAndRewrite loop i64 fun _ => true).bind fun p =>
      (p.exits (semantics Unit) (env' 5) 3).map fun τ =>
        (toInt (τ (.after 30 .replacement)), toInt (τ (.after 31 .replacement)))) = some (some 5, some 7) := by
    decide +kernel
  obtain ⟨σ, hσ, hsum⟩ := map_eq_some_iff.mp hresults
  obtain ⟨p, hp, hp'⟩ := bind_eq_some_iff.mp hexpressions
  obtain ⟨τ, hτ, hsum'⟩ := map_eq_some_iff.mp hp'
  refine ⟨p, σ, hp, wellFormed, holds 5, wellTyped (by decide), hσ, fun h => ?_⟩
  obtain ⟨τ', hτ', hsame⟩ := h.exits 3 le_rfl σ hσ
  rw [hτ] at hτ'
  cases hτ'
  have hcounter : τ (.after 30 .replacement) = σ 30 := hsame 30
  have hvalue : τ (.after 31 .replacement) = σ 31 := hsame 31
  rw [hcounter, hvalue, hsum] at hsum'
  cases hsum'

end StepTwo

end InductionReplacement

end EnzymeJax.WhileLoop
