import EnzymeJax.WhileLoop.CarriedForms

/-!
# Carried values that are updated in one place

Where every iteration updates a value at the same place, `WhileDUS` carries the update, and
`WhileUpdateWithoutCorners` does so where the corners are kept. The second of two updates at one place wins, so
the value that is updated is what was there before the loop. Where it comes from outside, it is the value after
the loop unless there was no iteration, which the condition on the values from before the loop tells.
-/

namespace EnzymeJax.WhileLoop

open Tensor Straightline Option Function
open List hiding allSome

open WhileConcat (getSlice dimAt getDefiningOp_of_getSlice eval_slice_shape)

variable {α V : Type} [DecidableEq V]

/-- What is yielded as an update at a fixed place. -/
inductive Update (V : Type)
  | dynamicUpdateSlice (update : V) (starts : List V)
  -- a concatenation of this shape with what is between a leading slice of this size and a trailing slice
  | concatenate (dimension : Nat) (newOps : List V) (shape : List Nat) (lhs : Option Nat)
  | updateWithoutCorners (corners : Corners) (update : V)

namespace Update

variable (r : V)

def op : Update V → Op α
  | dynamicUpdateSlice .. | concatenate .. => .dynamicUpdateSlice
  | updateWithoutCorners corners _ => .updateWithoutCorners corners

omit [DecidableEq V] in
/-- The constants for the place of a concatenation. -/
def constants : Update V → List (Instr (Op α) (FormName V))
  | concatenate _ _ _ lhs =>
    ⟨.initial r 1, .constant (ofInt 0), []⟩ :: lhs.elim [] fun size => [⟨.initial r 2, .constant (ofInt size), []⟩]
  | _ => []

omit [DecidableEq V] in
def starts : Update V → List (FormName V)
  | dynamicUpdateSlice _ starts => starts.map .old
  | concatenate dimension _ shape lhs =>
    let zeros := List.replicate shape.length (.initial r 1)
    if lhs.isSome then zeros.set dimension (.initial r 2) else zeros
  | updateWithoutCorners .. => []

/-- The update, and the code that makes one of several operands. -/
def update : Update V → FormName V
  | dynamicUpdateSlice update _ | concatenate _ [update] _ _ | updateWithoutCorners _ update => .old update
  | concatenate .. => .yielded r 0

def yields : Update V → List (Instr (Op α) (FormName V))
  | concatenate _ [_] _ _ => []
  | concatenate dimension newOps _ _ => [⟨.yielded r 0, .concatenate dimension, newOps.map .old⟩]
  | _ => []

def shape (typeOf : V → ValueType) : Update V → List Nat
  | dynamicUpdateSlice update _ | updateWithoutCorners _ update => (typeOf update).shape
  | concatenate dimension newOps shape _ =>
    shape.set dimension (newOps.map fun v => coord (typeOf v).shape dimension).sum

/-- What there is before the loop at the place of the update. -/
def before (typeOf : V → ValueType) (c : Carried V) : Update V → List (Instr (Op α) (FormName V))
  | updateWithoutCorners .. => []
  | u => [⟨.initial c.result 0, .dynamicSlice (u.shape typeOf), .old c.operand :: u.starts c.result⟩]

def operand (c : Carried V) : Update V → FormName V
  | updateWithoutCorners .. => .old c.operand
  | _ => .initial c.result 0

end Update

structure Candidate (V : Type) where
  update : Update V
  -- what is updated, if it is not the argument
  conditionalOperand : Option V

section

variable (w : WhileOp α V) (typeOf : V → ValueType)

/-- The argument is used in a region. -/
def hasArgUse (c : Carried V) : Bool :=
  w.loop.condOps.any (fun i => c.condArg ∈ i.operands) || w.loop.test = c.condArg ||
    (w.loop.bodyOps.any (fun i => c.bodyArg ∈ i.operands) || w.loop.carried.any fun c' => c'.yield = c.bodyArg)

/-- The value that is updated: the argument, or one from outside if nothing else uses the argument. -/
def getConditionalOperand (c : Carried V) (operand : V) : Option (Option V) :=
  if operand = c.bodyArg then some none
  else if w.definedOutside operand then
    if hasArgUse w c then none else some (some operand)
  else none

variable (getCandidate : Carried V → Option (Candidate V))

def isCandidate (c : Carried V) : Bool := (getCandidate c).isSome

/-- The condition with what the loop is entered with. -/
def condMapping (v : V) : FormName V :=
  Straightline.assign w.loop.carried Carried.condArg (fun c => .old c.operand)
    (fun v => if v ∈ w.loop.condOps.map Instr.result then .shared v else .old v) v

/-- The value that an argument or a result is, as an update of what was there before the loop. -/
def rebuildUpdate (c : Carried V) (v : V) : List (Instr (Op α) (FormName V)) :=
  (getCandidate c).elim [] fun k =>
    [⟨.old v, k.update.op, .old c.operand :: .form v :: k.update.starts c.result⟩]

def resultUpdate (c : Carried V) : List (Instr (Op α) (FormName V)) :=
  (getCandidate c).elim [] fun k =>
    match k.conditionalOperand with
    | some operand =>
      [⟨.part c.result 0, .select, [condMapping w w.loop.test, .old operand, .old c.operand]⟩,
        ⟨.old c.result, k.update.op, .part c.result 0 :: .form c.result :: k.update.starts c.result⟩]
    | none => [⟨.old c.result, k.update.op, .old c.operand :: .form c.result :: k.update.starts c.result⟩]

/-- The code of both patterns. What replaces a concatenation in the body has its value, so that the body keeps it. -/
def carryingUpdates : Carrying (Op α) V where
  before c := (getCandidate c).elim [] fun k => k.update.constants c.result ++ k.update.before typeOf c
  operand c := (getCandidate c).elim (.old c.operand) fun k => k.update.operand c
  condHead := []
  bodyHead := []
  rebuild := rebuildUpdate getCandidate
  body := renamedBody w.loop (isCandidate getCandidate) fun c => (getCandidate c).elim [] fun k => k.update.yields c.result
  yield c := (getCandidate c).elim (.old c.yield) fun k => k.update.update c.result
  after :=
    (if w.loop.carried.any fun c => (getCandidate c).any fun k => k.conditionalOperand.isSome then
      w.loop.condOps.map (Instr.rename .shared (condMapping w)) else []) ++
    (w.loop.carried.filter (isCandidate getCandidate)).flatMap (resultUpdate w getCandidate)

end

/-! ### The candidates -/

namespace WhileDUS

variable (w : WhileOp α V) (typeOf : V → ValueType)

def lhsOk (outer : V) (dimension : Nat) (v operand : V) (dims : List SliceDim) : Prop :=
  ∀ i < (typeOf v).shape.length, (dimAt dims i).start = 0 ∧
    (i ≠ dimension → coord (typeOf operand).shape i = coord (typeOf outer).shape i) ∧ (dimAt dims i).stride = 1

def rhsOk (outer : V) (dimension : Nat) (v operand : V) (dims : List SliceDim) : Prop :=
  ∀ i < (typeOf v).shape.length, (dimAt dims i).limit = coord (typeOf outer).shape i ∧
    (i ≠ dimension → coord (typeOf operand).shape i = coord (typeOf outer).shape i) ∧ (dimAt dims i).stride = 1

instance (outer : V) (dimension : Nat) (v operand : V) (dims : List SliceDim) :
    Decidable (lhsOk typeOf outer dimension v operand dims) := inferInstanceAs (Decidable (∀ i < _, _))

instance (outer : V) (dimension : Nat) (v operand : V) (dims : List SliceDim) :
    Decidable (rhsOk typeOf outer dimension v operand dims) := inferInstanceAs (Decidable (∀ i < _, _))

/-- The tensor that the ends are slices of, and which of the ends are. -/
structure Ends (V : Type) where
  operand : V
  lhs : Bool
  rhs : Bool

def isLegalConcatToOneDimDUS (outer : V) (dimension : Nat) (operands : List V) : Option (Ends V) := do
  guard (2 ≤ operands.length)
  let first ← operands.head?
  let last ← operands.getLast?
  let lhs := getSlice w first
  guard (lhs.all fun s => lhsOk typeOf outer dimension first s.1 s.2)
  let rhs := getSlice w last
  guard (rhs.all fun s => rhsOk typeOf outer dimension last s.1 s.2)
  let sameSize := fun v => coord (typeOf v).shape dimension = coord (typeOf outer).shape dimension
  match lhs, rhs with
  | none, none => none
  | some l, none =>
    guard (sameSize l.1)
    return ⟨l.1, true, false⟩
  | none, some r =>
    guard (sameSize r.1)
    return ⟨r.1, false, true⟩
  | some l, some r =>
    guard (operands.length ≠ 2)
    guard (l.1 = r.1)
    guard (sameSize l.1)
    return ⟨r.1, true, true⟩

/-- The operands that are not at an end. -/
def Ends.newOps (ends : Ends V) (operands : List V) : List V :=
  let inner := if ends.lhs then operands.tail else operands
  if ends.rhs then inner.dropLast else inner

/-- The size of the slice that comes first. -/
def Ends.lhsSize (ends : Ends V) (dimension : Nat) (operands : List V) : Option Nat :=
  if ends.lhs then operands.head?.map fun v => coord (typeOf v).shape dimension else none

def getCandidate (c : Carried V) : Option (Candidate V) :=
  match w.getDefiningOp w.loop.bodyOps c.yield with
  | some (.dynamicUpdateSlice, operand :: update :: starts) => do
    guard (∀ s ∈ starts, w.definedOutside s = true)
    let conditionalOperand ← getConditionalOperand w c operand
    return ⟨.dynamicUpdateSlice update starts, conditionalOperand⟩
  | some (.concatenate dimension, operands) => do
    let ends ← isLegalConcatToOneDimDUS w typeOf c.yield dimension operands
    let conditionalOperand ← getConditionalOperand w c ends.operand
    return ⟨.concatenate dimension (ends.newOps operands) (typeOf c.yield).shape (ends.lhsSize typeOf dimension operands),
      conditionalOperand⟩
  | _ => none

def matchAndRewrite : Option (Program (Op α) (FormName V)) :=
  if w.loop.carried.any (isCandidate (getCandidate w typeOf)) then
    some (carryAs w.loop (isCandidate (getCandidate w typeOf)) (carryingUpdates w typeOf (getCandidate w typeOf)))
  else none

end WhileDUS

namespace WhileUpdateWithoutCorners

variable (w : WhileOp α V) (typeOf : V → ValueType)

def getCandidate (c : Carried V) : Option (Candidate V) :=
  match w.getDefiningOp w.loop.bodyOps c.yield with
  | some (.updateWithoutCorners corners, [operand, update]) => do
    let conditionalOperand ← getConditionalOperand w c operand
    return ⟨.updateWithoutCorners corners update, conditionalOperand⟩
  | _ => none

def matchAndRewrite : Option (Program (Op α) (FormName V)) :=
  if w.loop.carried.any (isCandidate (getCandidate w)) then
    some (carryAs w.loop (isCandidate (getCandidate w)) (carryingUpdates w typeOf (getCandidate w)))
  else none

end WhileUpdateWithoutCorners

/-! ### Updates in a run -/

section

variable {w : WhileOp α V} {typeOf : V → ValueType} {env : V → Val α} {u : Update V} {b x x' y z : Val α}
  {shape : List Nat}

/-- What the verifier asks of updates and of concatenations. -/
structure UpdatesOk (w : WhileOp α V) (typeOf : V → ValueType) : Prop where
  dynamicUpdateSlice : ∀ v operand update starts,
    w.getDefiningOp w.loop.bodyOps v = some (.dynamicUpdateSlice, operand :: update :: starts) →
      DynamicSliceOk (typeOf v).shape (typeOf update).shape starts.length ∧ ∀ s ∈ starts, typeOf s = .index
  updateWithoutCorners : ∀ v corners operand update,
    w.getDefiningOp w.loop.bodyOps v = some (.updateWithoutCorners corners, [operand, update]) →
      (typeOf update).shape = (typeOf v).shape
  concatenate : ∀ v dimension operands, w.getDefiningOp w.loop.bodyOps v = some (.concatenate dimension, operands) →
      dimension < (typeOf v).shape.length ∧
      (∀ a ∈ operands, (typeOf a).shape.set dimension 0 = (typeOf v).shape.set dimension 0) ∧
      coord (typeOf v).shape dimension = (operands.map fun a => coord (typeOf a).shape dimension).sum

variable {r v operand : V} {i : Instr (Op α) (FormName V)} {conditional : Option V}

namespace Update

def startValues (env : V → Val α) : Update V → List (Val α)
  | dynamicUpdateSlice _ starts => starts.map env
  | concatenate dimension _ shape lhs =>
    (List.replicate shape.length (ofInt 0)).set dimension (ofInt (lhs.elim 0 Int.ofNat))
  | updateWithoutCorners .. => []

/-- The constants are computed. -/
def Initial (u : Update V) (f : Nat → Val α) : Prop :=
  match u with
  | concatenate _ _ _ lhs => f 1 = ofInt 0 ∧ ∀ size, lhs = some size → f 2 = ofInt size
  | _ => True

/-- The update fits a tensor of the shape. -/
def Fits (u : Update V) (typeOf : V → ValueType) (env : V → Val α) (shape : List Nat) : Prop :=
  match u with
  | updateWithoutCorners .. => u.shape typeOf = shape
  | _ => ∃ ss, allSome ((u.startValues env).map toInt) = some ss ∧ DynamicSliceOk shape (u.shape typeOf) ss.length

omit [DecidableEq V] in
theorem exists_eval (hfits : u.Fits typeOf env shape) (hb : b.shape = shape) (hx : x.shape = u.shape typeOf) :
    ∃ z, (u.op : Op α).eval (b :: x :: u.startValues env) = some z := by
  have hdus : ∀ {starts : List (Val α)}, (∃ ss, allSome (starts.map toInt) = some ss ∧
      DynamicSliceOk shape (u.shape typeOf) ss.length) → ∃ z, (Op.dynamicUpdateSlice).eval (b :: x :: starts) = some z := by
    intro starts ⟨ss, hss, hok⟩
    rw [← hb, ← hx] at hok
    exact ⟨_, bind_eq_some_iff.mpr ⟨ss, hss, Tensor.Value.lift_eq_some.mpr ⟨_, if_pos hok,
      (Tensor.Value.same_ofTensor _).symm⟩⟩⟩
  cases u with
  | dynamicUpdateSlice update starts | concatenate dimension newOps shape lhs => exact hdus hfits
  | updateWithoutCorners corners update =>
    exact ⟨_, Tensor.Value.lift_eq_some.mpr ⟨_, if_pos (hb.trans (hfits.symm.trans hx.symm)), (Tensor.Value.same_ofTensor _).symm⟩⟩

omit [DecidableEq V] in
theorem eval_twice (hshape : x'.shape = x.shape) (h : (u.op : Op α).eval (b :: x :: u.startValues env) = some y)
    (h' : (u.op : Op α).eval (y :: x' :: u.startValues env) = some z) :
    (u.op : Op α).eval (b :: x' :: u.startValues env) = some z := by
  cases u with
  | dynamicUpdateSlice update starts | concatenate dimension newOps shape lhs =>
    exact eval_dynamicUpdateSlice_twice hshape h h'
  | updateWithoutCorners corners update => exact eval_updateWithoutCorners_twice h h'

/-- The starts are defined outside of the loop. -/
def StartsOutside (w : WhileOp α V) (u : Update V) : Prop :=
  ∀ update starts, u = .dynamicUpdateSlice update starts → ∀ s ∈ starts, w.definedOutside s = true

theorem map_starts {e : FormName V → Val α} (hout : u.StartsOutside w)
    (he : ∀ v, w.definedOutside v = true → e (.old v) = env v)
    (hinitial : u.Initial fun j => e (.initial r j)) : (u.starts r).map e = u.startValues env := by
  cases u with
  | dynamicUpdateSlice update starts =>
    rw [Update.starts, List.map_map]
    exact map_congr_left fun s hs => he s (hout update starts rfl s hs)
  | concatenate dimension newOps shape lhs =>
    have hzero : e (.initial r 1) = ofInt 0 := hinitial.1
    cases lhs with
    | none =>
      change (replicate shape.length (FormName.initial r 1)).map e =
        (replicate shape.length (ofInt 0)).set dimension (ofInt 0)
      rw [map_replicate, hzero, set_replicate_self]
    | some size =>
      have hsize : e (.initial r 2) = ofInt size := hinitial.2 size rfl
      change ((replicate shape.length (FormName.initial r 1)).set dimension (.initial r 2)).map e =
        (replicate shape.length (ofInt 0)).set dimension (ofInt size)
      rw [map_set, map_replicate, hzero, hsize]
  | updateWithoutCorners corners update => rfl

theorem run_constants (u : Update V) (r : V) (e : FormName V → Val α) :
    ∃ e', run (semantics α) (u.constants r) e = some e' ∧ u.Initial (fun j => e' (.initial r j)) ∧
      ∀ v, e' (.old v) = e (.old v) := by
  cases u with
  | dynamicUpdateSlice update starts => exact ⟨e, rfl, trivial, fun _ => rfl⟩
  | concatenate dimension newOps shape lhs =>
    cases lhs with
    | none => exact ⟨_, rfl, ⟨update_self .., nofun⟩, fun v => update_of_ne (fun heq => by cases heq) ..⟩
    | some size =>
      refine ⟨_, rfl, ⟨?_, fun size' hsize' => ?_⟩, fun v => ?_⟩
      · exact (update_of_ne (fun heq => by cases heq) ..).trans (update_self ..)
      · cases hsize'
        exact update_self ..
      · exact (update_of_ne (fun heq => by cases heq) ..).trans
          (update_of_ne (fun heq => by cases heq) ..)
  | updateWithoutCorners corners update => exact ⟨e, rfl, trivial, fun _ => rfl⟩

omit [DecidableEq V] in
theorem Initial.congr {f g : Nat → Val α} (h : u.Initial f) (h1 : g 1 = f 1) (h2 : g 2 = f 2) : u.Initial g := by
  cases u with
  | dynamicUpdateSlice update starts => trivial
  | concatenate dimension newOps shape lhs => exact ⟨h1.trans h.1, fun size hsize => h2.trans (h.2 size hsize)⟩
  | updateWithoutCorners corners update => trivial

theorem run_before {c : Carried V} {e : FormName V → Val α} (hout : u.StartsOutside w) (he : ∀ v, e (.old v) = env v)
    (hfits : u.Fits typeOf env (env c.operand).shape) :
    ∃ e', run (semantics α) (u.constants c.result ++ u.before typeOf c) e = some e' ∧
      u.Initial (fun j => e' (.initial c.result j)) ∧ (e' (u.operand c)).shape = u.shape typeOf ∧
        u.op.eval (env c.operand :: e' (u.operand c) :: u.startValues env) = some (env c.operand) := by
  obtain ⟨e₁, he₁, hinitial, hold⟩ := run_constants u c.result e
  have hold : ∀ v, e₁ (.old v) = env v := fun v => (hold v).trans (he v)
  have hstarts : (u.starts c.result).map e₁ = u.startValues env :=
    map_starts hout (fun v _ => hold v) hinitial
  rw [run_append, he₁, bind_some]
  -- the slice at the place of the update
  have hslice : (∃ ss, allSome ((u.startValues env).map toInt) = some ss ∧
      DynamicSliceOk (env c.operand).shape (u.shape typeOf) ss.length) →
        ∃ e', run (semantics α) [⟨.initial c.result 0, .dynamicSlice (u.shape typeOf),
          .old c.operand :: u.starts c.result⟩] e₁ = some e' ∧ u.Initial (fun j => e' (.initial c.result j)) ∧
            (e' (.initial c.result 0)).shape = u.shape typeOf ∧
              (Op.dynamicUpdateSlice).eval (env c.operand :: e' (.initial c.result 0) :: u.startValues env) =
                some (env c.operand) := by
    intro ⟨ss, hss, hok⟩
    obtain ⟨x, hx⟩ : ∃ x, (Op.dynamicSlice (u.shape typeOf)).eval (env c.operand :: u.startValues env) = some x :=
      ⟨_, bind_eq_some_iff.mpr ⟨ss, hss, Tensor.Value.lift_eq_some.mpr ⟨_, if_pos hok, (Tensor.Value.same_ofTensor _).symm⟩⟩⟩
    have heval : (Op.dynamicSlice (u.shape typeOf)).eval ((FormName.old c.operand :: u.starts c.result).map e₁) =
        some x := by rwa [map_cons, hold, hstarts]
    obtain ⟨e', hrun, hval⟩ : ∃ e', run (semantics α) [⟨.initial c.result 0, .dynamicSlice (u.shape typeOf),
        .old c.operand :: u.starts c.result⟩] e₁ = some e' ∧ e' (.initial c.result 0) = x := exists_run_one heval
    have hframe : ∀ j, j ≠ 0 → e' (.initial c.result j) = e₁ (.initial c.result j) := by
      refine fun j hj => run_frame hrun fun i hi heq => hj ?_
      rw [mem_singleton.mp hi] at heq
      exact (FormName.initial.inj heq).2.symm
    refine ⟨e', hrun, hinitial.congr (hframe 1 one_ne_zero) (hframe 2 (by decide)), ?_, ?_⟩
    · rw [hval]
      obtain ⟨-, -, -, hshape, -⟩ := eval_dynamicSlice.mp hx
      exact hshape
    · rw [hval]
      exact eval_dynamicUpdateSlice_dynamicSlice hx
  cases u with
  | dynamicUpdateSlice update starts | concatenate dimension newOps shape lhs => exact hslice hfits
  | updateWithoutCorners corners update =>
    have hoperand : e₁ (.old c.operand) = env c.operand := hold c.operand
    refine ⟨e₁, rfl, hinitial, ?_, ?_⟩
    · exact (congrArg Tensor.Value.shape hoperand).trans hfits.symm
    · change (Op.updateWithoutCorners corners).eval [env c.operand, e₁ (.old c.operand)] = _
      rw [hoperand]
      exact eval_updateWithoutCorners_self

end Update

/-- A candidate updates, at the same place in every iteration, the argument or a value from outside. -/
structure Candidate.Sound (w : WhileOp α V) (typeOf : V → ValueType) (env : V → Val α) (c : Carried V)
    (k : Candidate V) : Prop where
  startsOutside : k.update.StartsOutside w
  fits : k.update.Fits typeOf env (typeOf c.operand).shape
  conditional : ∀ operand, k.conditionalOperand = some operand → w.definedOutside operand = true ∧ hasArgUse w c = false
  yields : ∀ n σ e, w.loop.entering (semantics α) env n = some σ → w.loop.bodyEnv (semantics α) σ = some e →
    ∀ e' : FormName V → Val α,
      (∀ op operands, w.getDefiningOp w.loop.bodyOps c.yield = some (op, operands) → ∀ a ∈ operands, e' (.old a) = e a) →
        ∃ e'', run (semantics α) (k.update.yields c.result) e' = some e'' ∧
          (e'' (k.update.update c.result)).shape = k.update.shape typeOf ∧
            k.update.op.eval (e (k.conditionalOperand.getD c.bodyArg) :: e'' (k.update.update c.result) ::
              k.update.startValues env) = some (e c.yield)

variable {getCandidate : Carried V → Option (Candidate V)} {env' : FormName V → Val α} {c : Carried V} {k : Candidate V}
  {n N : Nat} {e σ : V → Val α}

/-- What is updated on entering an iteration. -/
def Candidate.base (k : Candidate V) (c : Carried V) (n : Nat) : V :=
  if n = 0 then c.operand else k.conditionalOperand.getD c.operand

/-- The arguments that are rebuilt. The others are not used. -/
def Exact (getCandidate : Carried V → Option (Candidate V)) (c : Carried V) : Prop :=
  ∀ k, getCandidate c = some k → k.conditionalOperand = none

/-- A value is what its base is with the form as an update. -/
def updateForms (getCandidate : Carried V → Option (Candidate V)) (typeOf : V → ValueType) (env : V → Val α) :
    Forms V (Val α) where
  rep c n x y := ∀ k, getCandidate c = some k → x.shape = k.update.shape typeOf ∧
    k.update.op.eval (env (k.base c n) :: x :: k.update.startValues env) = some y
  initial c f := ∀ k, getCandidate c = some k → k.update.Initial f
  shared _ _ := True
  exact := Exact getCandidate

omit [DecidableEq V] in
theorem isCandidate_iff : isCandidate getCandidate c = true ↔ ∃ k, getCandidate c = some k := isSome_iff_exists

theorem exact_of_hasArgUse (hsound : ∀ k, getCandidate c = some k → k.Sound w typeOf env c)
    (huse : hasArgUse w c = true) : Exact getCandidate c := by
  intro k hk
  cases hconditional : k.conditionalOperand with
  | none => rfl
  | some operand =>
    have hunused := ((hsound k hk).conditional operand hconditional).2
    rw [huse] at hunused
    cases hunused

theorem readsExact (hsound : ∀ c ∈ w.loop.carried, ∀ k, getCandidate c = some k → k.Sound w typeOf env c) :
    w.loop.ReadsExact (Exact getCandidate) := by
  refine ⟨fun i hi v hv c hc heq => ?_, fun c hc heq => ?_, fun i hi v hv c hc heq => ?_, fun c' hc' c hc heq => ?_⟩
  · have huse : (w.loop.condOps.any fun i => c.condArg ∈ i.operands) = true :=
      any_eq_true.mpr ⟨i, hi, decide_eq_true (heq ▸ hv)⟩
    exact exact_of_hasArgUse (hsound c hc) (by rw [hasArgUse, huse]; rfl)
  · exact exact_of_hasArgUse (hsound c hc) (by simp [hasArgUse, heq])
  · have huse : (w.loop.bodyOps.any fun i => c.bodyArg ∈ i.operands) = true :=
      any_eq_true.mpr ⟨i, hi, decide_eq_true (heq ▸ hv)⟩
    exact exact_of_hasArgUse (hsound c hc) (by simp only [hasArgUse, huse, Bool.true_or, Bool.or_true])
  · have huse : (w.loop.carried.any fun c' => c'.yield = c.bodyArg) = true :=
      any_eq_true.mpr ⟨c', hc', decide_eq_true heq.symm⟩
    exact exact_of_hasArgUse (hsound c hc) (by simp only [hasArgUse, huse, Bool.or_true])

omit [DecidableEq V] in
theorem Update.mem_constants (hi : i ∈ u.constants r) : ∃ j, i.result = .initial r j := by
  cases u with
  | dynamicUpdateSlice update starts => cases hi
  | concatenate dimension newOps shape lhs =>
    rcases mem_cons.mp hi with rfl | hi
    · exact ⟨1, rfl⟩
    · obtain ⟨size, -, hi⟩ := mem_elim.mp hi
      exact ⟨2, by rw [mem_singleton.mp hi]⟩
  | updateWithoutCorners corners update => cases hi

omit [DecidableEq V] in
theorem Update.mem_before (hi : i ∈ u.before typeOf c) : i.result = .initial c.result 0 := by
  cases u with
  | dynamicUpdateSlice update starts | concatenate dimension newOps shape lhs => rw [mem_singleton.mp hi]
  | updateWithoutCorners corners update => cases hi

theorem named : (carryingUpdates w typeOf getCandidate).Named := by
  refine ⟨fun c i hi => ?_, fun c => ?_, nofun, nofun, fun c v i hi => .inl ?_⟩
  · obtain ⟨k, -, hi⟩ := mem_elim.mp hi
    rcases mem_append.mp hi with hi | hi
    · exact Update.mem_constants hi
    · exact ⟨0, Update.mem_before hi⟩
  · change (∃ v, (getCandidate c).elim _ _ = _) ∨ ∃ j, (getCandidate c).elim _ _ = _
    cases getCandidate c with
    | none => exact .inl ⟨c.operand, rfl⟩
    | some k =>
      obtain ⟨update, conditional⟩ := k
      cases update with
      | dynamicUpdateSlice update starts | concatenate dimension newOps shape lhs => exact .inr ⟨0, rfl⟩
      | updateWithoutCorners corners update => exact .inl ⟨c.operand, rfl⟩
  · obtain ⟨k, -, hi⟩ := mem_elim.mp hi
    rw [mem_singleton.mp hi]

omit [DecidableEq V] in
theorem Candidate.base_zero : k.base c 0 = c.operand := if_pos rfl

theorem run_rebuildUpdate {e : FormName V → Val α} (hk : getCandidate c = some k) (hsound : k.Sound w typeOf env c)
    (hshape : (env c.operand).shape = (typeOf c.operand).shape)
    (hout : ∀ v, w.definedOutside v = true → e (.old v) = env v) (hoperand : w.definedOutside c.operand = true)
    (hinitial : k.update.Initial fun j => e (.initial c.result j)) (hx : (e (.form v)).shape = k.update.shape typeOf) :
    ∃ z, k.update.op.eval (env c.operand :: e (.form v) :: k.update.startValues env) = some z ∧
      ∃ e', run (semantics α) (rebuildUpdate getCandidate c v) e = some e' ∧ e' (.old v) = z := by
  obtain ⟨z, hz⟩ := Update.exists_eval hsound.fits hshape hx
  refine ⟨z, hz, ?_⟩
  rw [rebuildUpdate, hk]
  refine exists_run_one ?_
  rw [map_cons, map_cons, hout _ hoperand, Update.map_starts hsound.startsOutside hout hinitial]
  exact hz

omit [DecidableEq V] in
theorem Update.mem_yields (hi : i ∈ u.yields r) : i.result = .yielded r 0 := by
  cases u with
  | dynamicUpdateSlice update starts => cases hi
  | concatenate dimension newOps shape lhs =>
    match newOps with
    | [] => rw [mem_singleton.mp hi]
    | [_] => cases hi
    | _ :: _ :: _ => rw [mem_singleton.mp hi]
  | updateWithoutCorners corners update => cases hi

omit [DecidableEq V] in
theorem Update.update_cases (u : Update V) (r : V) : (∃ v, u.update r = .old v) ∨ ∃ j, u.update r = .yielded r j := by
  cases u with
  | dynamicUpdateSlice update starts => exact .inl ⟨update, rfl⟩
  | concatenate dimension newOps shape lhs =>
    match newOps with
    | [] => exact .inr ⟨0, rfl⟩
    | [v] => exact .inl ⟨v, rfl⟩
    | _ :: _ :: _ => exact .inr ⟨0, rfl⟩
  | updateWithoutCorners corners update => exact .inl ⟨update, rfl⟩

variable {operands : List V}

theorem reads_of_definingOp {op : Op α} {a : V} {exact : Carried V → Prop} (hw : w.WellFormed)
    (hreads : w.loop.ReadsExact exact) (hdef : w.getDefiningOp w.loop.bodyOps v = some (op, operands))
    (ha : a ∈ operands) : w.loop.Reads Carried.bodyArg exact a := by
  intro c hc
  refine ⟨hw.result_ne_of_bodyScope (hw.bodyScope_of_definingOp hdef a ha) hc, fun heq => ?_⟩
  rw [WhileOp.getDefiningOp] at hdef
  split at hdef
  · rename_i i hi
    cases some.inj hdef
    exact hreads.bodyOps i (mem_of_find?_eq_some hi) a ha c hc heq
  · exact absurd heq (WhileOp.bodyArg_ne ((hw.defs_outside v op operands hdef).2 a ha) hc)

theorem computes (N : Nat) (hw : w.WellFormed) (htyped : w.WellTyped typeOf env)
    (hsound : ∀ c ∈ w.loop.carried, ∀ k, getCandidate c = some k → k.Sound w typeOf env c) :
    (carryingUpdates w typeOf getCandidate).Computes (semantics α) w.loop (isCandidate getCandidate)
      (fun v => w.definedOutside v = true) env N (updateForms getCandidate typeOf env) := by
  have hshape : ∀ c ∈ w.loop.carried, (env c.operand).shape = (typeOf c.operand).shape := fun c hc =>
    (htyped.outside _ (hw.operand_outside c hc)).1
  constructor
  case condHead => exact fun _ _ _ _ _ _ e _ _ => ⟨e, rfl, trivial⟩
  case bodyHead => exact fun _ _ _ _ _ _ e _ _ => ⟨e, rfl, trivial⟩
  case before =>
    intro c hc hcand e he
    obtain ⟨k, hk⟩ := isCandidate_iff.mp hcand
    have hfits := (hsound c hc k hk).fits
    rw [← hshape c hc] at hfits
    obtain ⟨e', hrun, hinitial, hx, heval⟩ := Update.run_before (hsound c hc k hk).startsOutside he hfits
    refine ⟨e', ?_, fun k' hk' => ?_, fun k' hk' => ?_⟩
    · change run _ ((getCandidate c).elim _ _) e = _
      rw [hk]
      exact hrun
    · cases hk.symm.trans hk'
      change (e' ((getCandidate c).elim _ _)).shape = _ ∧ k.update.op.eval (_ :: e' ((getCandidate c).elim _ _) :: _) = _
      rw [hk, Candidate.base_zero]
      exact ⟨hx, heval⟩
    · cases hk.symm.trans hk'
      exact hinitial
  case rebuild =>
    intro n _ σ _ c hc hcand v e hout _ hinitial hrep
    obtain ⟨k, hk⟩ := isCandidate_iff.mp hcand
    obtain ⟨hx, heval⟩ := hrep k hk
    obtain ⟨z, hz, e', hrun, hval⟩ := run_rebuildUpdate hk (hsound c hc k hk) (hshape c hc) hout
      (hw.operand_outside c hc) (hinitial k hk) hx
    refine ⟨e', hrun, fun hexact => hval.trans ?_⟩
    have hbase : k.base c n = c.operand := by
      rw [Candidate.base, hexact k hk]
      exact ite_self _
    rw [hbase] at heval
    exact some.inj (hz.symm.trans heval)
  case body =>
    intro n _ σ e hσ _ he e₀ hold _ hforms
    have hreads := readsExact hsound
    obtain ⟨e', he', hagree, hyields⟩ : ∃ e', run (semantics α) (renamedBody w.loop (isCandidate getCandidate) fun c =>
        (getCandidate c).elim [] fun k => k.update.yields c.result) e₀ = some e' ∧
          (∀ v, w.loop.Reads Carried.bodyArg (Exact getCandidate) v → e' (.old v) = e v) ∧
            ∀ c ∈ w.loop.carried, isCandidate getCandidate c = true →
              (updateForms getCandidate typeOf env).rep c (n + 1) (e' ((carryingUpdates w typeOf getCandidate).yield c))
                (e c.yield) := by
      refine run_renamedBody (R := fun c => (updateForms getCandidate typeOf env).rep c (n + 1)) hw.scoped hreads
        (fun c i hi => ?_) (fun c => ?_) (fun c hc hcand e' hagree _ => ?_) hold he
      · obtain ⟨k, -, hi⟩ := mem_elim.mp hi
        exact ⟨0, Update.mem_yields hi⟩
      · change (∃ v, (getCandidate c).elim _ _ = _) ∨ ∃ j, (getCandidate c).elim _ _ = _
        cases getCandidate c with
        | none => exact .inl ⟨c.yield, rfl⟩
        | some k => exact k.update.update_cases c.result
      · obtain ⟨k, hk⟩ := isCandidate_iff.mp hcand
        have hksound := hsound c hc k hk
        obtain ⟨e'', hrun, hx, heval⟩ := hksound.yields n σ e hσ he e' fun op operands hdef a ha =>
          hagree a (reads_of_definingOp hw hreads hdef ha)
        refine ⟨e'', ?_, fun k' hk' => ?_⟩
        · rw [hk]
          exact hrun
        · cases hk.symm.trans hk'
          change (e'' ((getCandidate c).elim _ _)).shape = _ ∧
            k.update.op.eval (_ :: e'' ((getCandidate c).elim _ _) :: _) = _
          rw [hk]
          refine ⟨hx, ?_⟩
          cases hconditional : k.conditionalOperand with
          | some operand =>
            rw [hconditional, getD_some,
              WhileOp.bodyEnv_outside hσ he (hksound.conditional operand hconditional).1] at heval
            rw [Candidate.base, if_neg (Nat.succ_ne_zero n), hconditional]
            exact heval
          | none =>
            obtain ⟨x, hform⟩ := hforms c hc hcand
            obtain ⟨hx', hold'⟩ := hform k hk
            have hbase : ∀ m, k.base c m = c.operand := by
              intro m
              rw [Candidate.base, hconditional]
              exact ite_self _
            rw [hconditional, getD_none, WhileOp.bodyEnv_bodyArg hw he hc] at heval
            rw [hbase] at hold' ⊢
            exact Update.eval_twice (hx.trans hx'.symm) hold' heval
    exact ⟨e', he', hagree, fun c hc hcand _ => hyields c hc hcand⟩

theorem continues_start (h : w.loop.exits (semantics α) env n = some σ) :
    w.loop.continues (semantics α) (w.loop.start env) = some (decide (n ≠ 0)) := by
  obtain ⟨hend, hfalse⟩ := Loop.exits_eq_some.mp h
  cases n with
  | zero =>
    cases hend
    exact hfalse
  | succ n =>
    obtain ⟨σ₀, -, hσ₀, htrue, -⟩ := Loop.exists_executed hend (Nat.succ_pos n)
    cases hσ₀
    exact htrue

theorem condMapping_condArg (hw : w.WellFormed) (hc : c ∈ w.loop.carried) : condMapping w c.condArg = .old c.operand :=
  assign_of_mem hw.nodup_condArg hc

theorem condMapping_outside (hv : w.definedOutside v = true) : condMapping w v = .old v := by
  rw [condMapping, assign_of_ne fun c hc => WhileOp.condArg_ne hv hc, if_neg fun hmem => ?_]
  obtain ⟨i, hi, heq⟩ := mem_map.mp hmem
  exact WhileOp.condOp_ne hv hi heq

theorem condMapping_result (hw : w.WellFormed) {i : Instr (Op α) V} (hi : i ∈ w.loop.condOps) :
    condMapping w i.result = .shared i.result := by
  rw [condMapping, assign_of_ne fun c hc heq => hw.condOp_ne_condArg hi hc heq.symm,
    if_pos (mem_map_of_mem hi)]

theorem run_condition {τ : FormName V → Val α} (hw : w.WellFormed)
    (hτ : ∀ v, w.definedOutside v = true → τ (.old v) = env v) (h : w.loop.exits (semantics α) env n = some σ) :
    ∃ τ', run (semantics α) (w.loop.condOps.map (Instr.rename .shared (condMapping w))) τ = some τ' ∧
      toPred (τ' (condMapping w w.loop.test)) = some (decide (n ≠ 0)) ∧ ∀ v, (∀ u, v ≠ .shared u) → τ' v = τ v := by
  obtain ⟨e, he, htest⟩ := bind_eq_some_iff.mp (continues_start h)
  have hscoped : ∀ v, w.CondScope v → (∀ i ∈ w.loop.condOps, i.result ≠ v) → τ (condMapping w v) =
      Straightline.assign w.loop.carried Carried.condArg (fun c => w.loop.start env c.result) (w.loop.start env) v := by
    rintro v (hv | ⟨c, hc, rfl⟩ | ⟨i, hi, rfl⟩) hne
    · rw [condMapping_outside hv, hτ v hv, assign_of_ne fun c hc => WhileOp.condArg_ne hv hc, Loop.start,
        assign_of_ne fun c hc => WhileOp.result_ne hv hc]
    · rw [condMapping_condArg hw hc, hτ _ (hw.operand_outside c hc), assign_of_mem hw.nodup_condArg hc,
        WhileOp.start_result hw hc]
    · exact absurd rfl (hne i hi)
  have hnames : ∀ i ∈ w.loop.condOps, ∀ v, w.CondScope v → (condMapping w v = .shared i.result ↔ v = i.result) := by
    intro i hi v hv
    refine ⟨fun heq => ?_, fun heq => heq ▸ condMapping_result hw hi⟩
    rcases hv with hv | ⟨c, hc, rfl⟩ | ⟨j, hj, rfl⟩
    · rw [condMapping_outside hv] at heq
      cases heq
    · rw [condMapping_condArg hw hc] at heq
      cases heq
    · rw [condMapping_result hw hj] at heq
      exact FormName.shared.inj heq
  obtain ⟨τ', hrun, hagree⟩ := run_rename_fresh hw.cond_ordered hw.cond_scope hnames hscoped he
  refine ⟨τ', hrun, by rw [hagree _ hw.test_scope]; exact htest, fun v hv => run_frame hrun fun i hi heq => ?_⟩
  obtain ⟨j, -, rfl⟩ := mem_map.mp hi
  exact hv _ heq.symm

theorem condMapping_test (hw : w.WellFormed) : (∃ v, condMapping w w.loop.test = .shared v) ∨
      ∃ v, condMapping w w.loop.test = .old v ∧ w.definedOutside v = true := by
  rcases hw.test_scope with hv | ⟨c, hc, hv⟩ | ⟨i, hi, hv⟩
  · exact .inr ⟨_, condMapping_outside hv, hv⟩
  · exact .inr ⟨c.operand, hv ▸ condMapping_condArg hw hc, hw.operand_outside c hc⟩
  · exact .inl ⟨i.result, hv ▸ condMapping_result hw hi⟩

theorem mem_resultUpdate (hi : i ∈ resultUpdate w getCandidate c) :
    i.result = .old c.result ∨ ∃ j, i.result = .part c.result j := by
  obtain ⟨k, -, hi⟩ := mem_elim.mp hi
  split at hi
  · rcases mem_cons.mp hi with rfl | hi
    · exact .inr ⟨0, rfl⟩
    · exact .inl (by rw [mem_singleton.mp hi])
  · exact .inl (by rw [mem_singleton.mp hi])

theorem run_resultUpdate {e : FormName V → Val α} {y : Val α} (hk : getCandidate c = some k)
    (hsound : k.Sound w typeOf env c) (hoperand : w.definedOutside c.operand = true)
    (hout : ∀ v, w.definedOutside v = true → e (.old v) = env v)
    (hinitial : k.update.Initial fun j => e (.initial c.result j))
    (hval : k.update.op.eval (env (k.base c n) :: e (.form c.result) :: k.update.startValues env) = some y)
    (htest : k.conditionalOperand.isSome = true → toPred (e (condMapping w w.loop.test)) = some (decide (n ≠ 0))) :
    ∃ e', run (semantics α) (resultUpdate w getCandidate c) e = some e' ∧ e' (.old c.result) = y := by
  rw [resultUpdate, hk]
  cases hconditional : k.conditionalOperand with
  | none =>
    have hbase : k.base c n = c.operand := by
      rw [Candidate.base, hconditional]
      exact ite_self _
    rw [hbase] at hval
    simp only [elim_some, hconditional]
    refine exists_run_one ?_
    rw [map_cons, map_cons, hout _ hoperand, Update.map_starts hsound.startsOutside hout hinitial]
    exact hval
  | some operand =>
    simp only [elim_some, hconditional]
    have hselect : (Op.select).eval ([condMapping w w.loop.test, .old operand, .old c.operand].map e) =
        some (env (k.base c n)) := by
      change (toPred (e _)).map _ = _
      rw [htest (by rw [hconditional]; rfl), hout _ (hsound.conditional operand hconditional).1, hout _ hoperand,
        Candidate.base, hconditional]
      by_cases hn : n = 0
      · simp [hn]
      · simp [hn]
    obtain ⟨e₁, hrun, hpart⟩ : ∃ e₁, run (semantics α) [⟨.part c.result 0, .select,
        [condMapping w w.loop.test, .old operand, .old c.operand]⟩] e = some e₁ ∧
          e₁ (.part c.result 0) = env (k.base c n) := exists_run_one hselect
    have hframe : ∀ v, v ≠ .part c.result 0 → e₁ v = e v := fun v hv => run_frame hrun fun i hi heq => by
      rw [mem_singleton.mp hi] at heq
      exact hv heq.symm
    rw [← singleton_append, run_append, hrun, bind_some]
    refine exists_run_one ?_
    have hinitial₁ : k.update.Initial fun j => e₁ (.initial c.result j) :=
      hinitial.congr (hframe (.initial c.result 1) nofun) (hframe (.initial c.result 2) nofun)
    have hout₁ : ∀ v, w.definedOutside v = true → e₁ (.old v) = env v := fun v hv =>
      (hframe (.old v) nofun).trans (hout v hv)
    rw [map_cons, map_cons, hpart, hframe (.form c.result) nofun,
      Update.map_starts hsound.startsOutside hout₁ hinitial₁]
    exact hval

theorem simulatesTo_updates (N : Nat) (hw : w.WellFormed) (htyped : w.WellTyped typeOf env)
    (hsound : ∀ c ∈ w.loop.carried, ∀ k, getCandidate c = some k → k.Sound w typeOf env c)
    (henv' : ∀ v, env' (.old v) = env v) :
    SimulatesTo (semantics α) w.loop
      (carryAs w.loop (isCandidate getCandidate) (carryingUpdates w typeOf getCandidate)) env env' N
      (fun _ e e' => ∀ v, w.loop.Reads Carried.condArg (Exact getCandidate) v → e' (.old v) = e v)
      (fun _ e e' => ∀ v, w.loop.Reads Carried.bodyArg (Exact getCandidate) v → e' (.old v) = e v)
      fun _ σ τ => ∀ v, τ (.old v) = σ v := by
  refine simulatesTo_carryAs hw.scoped (readsExact hsound) named (computes N hw htyped hsound) henv'
    (fun _ _ _ h => h) (fun _ _ _ h => h) fun n hn σ τ hσ hR => ?_
  have hend := (Loop.exits_eq_some.mp hσ).1
  have hτ : ∀ v, w.definedOutside v = true → τ (.old v) = env v := fun v hv => by
    rw [hR.kept v fun c hc _ => WhileOp.result_ne hv hc, WhileOp.entering_outside hend hv]
  obtain ⟨τ₁, hτ₁, hframe, htest⟩ : ∃ τ₁, run (semantics α)
      (if w.loop.carried.any fun c => (getCandidate c).any fun k => k.conditionalOperand.isSome then
        w.loop.condOps.map (Instr.rename .shared (condMapping w)) else []) τ = some τ₁ ∧
      (∀ v, (∀ u, v ≠ .shared u) → τ₁ v = τ v) ∧
      ((w.loop.carried.any fun c => (getCandidate c).any fun k => k.conditionalOperand.isSome) = true →
        toPred (τ₁ (condMapping w w.loop.test)) = some (decide (n ≠ 0))) := by
    split
    · obtain ⟨τ₁, hτ₁, htest, hframe⟩ := run_condition hw hτ hσ
      exact ⟨τ₁, hτ₁, hframe, fun _ => htest⟩
    · rename_i hnone
      exact ⟨τ, rfl, fun _ _ => rfl, fun hany => absurd hany hnone⟩
  change ∃ τ', run _ (_ ++ _) τ = some τ' ∧ _
  rw [run_append, hτ₁, bind_some]
  refine run_results hw.scoped (fun c i hi => mem_resultUpdate hi)
    (fun v hv => (hframe (.old v) fun _ => nofun).trans (hR.kept v hv))
    fun c hc hcand e hold hshared hinitial hform => ?_
  obtain ⟨k, hk⟩ := isCandidate_iff.mp hcand
  have hout : ∀ v, w.definedOutside v = true → e (.old v) = env v := fun v hv => by
    rw [hold v fun c hc _ => WhileOp.result_ne hv hc, WhileOp.entering_outside hend hv]
  have hinitial' : k.update.Initial fun j => e (.initial c.result j) := by
    refine (hR.initial c hc hcand k hk).congr ?_ ?_ <;>
      exact (hinitial c.result _).trans (hframe _ fun _ => nofun)
  obtain ⟨-, hval⟩ := hR.forms c hc hcand k hk
  rw [← hframe (.form c.result) fun _ => nofun, ← hform] at hval
  refine run_resultUpdate hk (hsound c hc k hk) (hw.operand_outside c hc) hout hinitial' hval fun hsome => ?_
  have hany : (w.loop.carried.any fun c => (getCandidate c).any fun k => k.conditionalOperand.isSome) = true :=
    any_eq_true.mpr ⟨c, hc, by rw [hk]; exact hsome⟩
  rw [← htest hany]
  rcases condMapping_test hw with ⟨v, hv⟩ | ⟨v, hv, hvout⟩
  · rw [hv, hshared]
  · have hne : ∀ c ∈ w.loop.carried, isCandidate getCandidate c = true → c.result ≠ v := fun c hc _ =>
      WhileOp.result_ne hvout hc
    rw [hv, hold v hne, hframe (.old v) fun _ => nofun, hR.kept v hne]

/-! ### The candidates in a run -/

theorem getConditionalOperand_spec (h : getConditionalOperand w c operand = some conditional) :
    conditional.getD c.bodyArg = operand ∧
      ∀ v, conditional = some v → w.definedOutside v = true ∧ hasArgUse w c = false := by
  rw [getConditionalOperand] at h
  split at h
  · rename_i harg
    cases h
    exact ⟨harg.symm, by rintro _ ⟨⟩⟩
  · split at h
    · rename_i hout
      split at h
      · cases h
      · rename_i hunused
        cases h
        refine ⟨rfl, fun v hv => ?_⟩
        cases hv
        exact ⟨hout, eq_false_of_ne_true hunused⟩
    · cases h

theorem shape_operand {op : Op α} {a : V} (hw : w.WellFormed) (htyped : w.WellTyped typeOf env)
    (hσ : w.loop.entering (semantics α) env n = some σ) (he : w.loop.bodyEnv (semantics α) σ = some e)
    (hdef : w.getDefiningOp w.loop.bodyOps v = some (op, operands)) (ha : a ∈ operands) :
    (e a).shape = (typeOf a).shape :=
  (htyped.has_bodyEnv hw hσ (fun _ hc => htyped.has_entering hw hσ hc) he (hw.bodyScope_of_definingOp hdef a ha)).1

namespace WhileUpdateWithoutCorners

theorem sound (hw : w.WellFormed) (henv : w.Holds env) (htyped : w.WellTyped typeOf env) (hok : UpdatesOk w typeOf)
    (hc : c ∈ w.loop.carried) (hk : WhileUpdateWithoutCorners.getCandidate w c = some k) : k.Sound w typeOf env c := by
  rw [WhileUpdateWithoutCorners.getCandidate] at hk
  split at hk
  case h_2 => cases hk
  rename_i corners operand update hdef
  obtain ⟨conditional, hconditional, hk⟩ := bind_eq_some_iff.mp hk
  cases hk
  obtain ⟨hbase, hout⟩ := getConditionalOperand_spec hconditional
  refine ⟨nofun, ?_, hout, fun n σ e hσ he e' hagree => ⟨e', rfl, ?_, ?_⟩⟩
  · change (typeOf update).shape = (typeOf c.operand).shape
    rw [hok.updateWithoutCorners _ _ _ _ hdef, (htyped.carried c hc).2]
  · have hupd : e' (.old update) = e update := hagree _ _ hdef update (by simp)
    exact (congrArg Tensor.Value.shape hupd).trans (shape_operand hw htyped hσ he hdef (by simp))
  · have hupd : e' (.old update) = e update := hagree _ _ hdef update (by simp)
    change (Op.updateWithoutCorners corners).eval [e (conditional.getD c.bodyArg), e' (.old update)] = some (e c.yield)
    rw [hbase, hupd]
    exact WhileOp.eval_definingOp hw henv hw.body_ordered he (fun v => WhileOp.bodyEnv_outside hσ he) hdef

end WhileUpdateWithoutCorners

namespace WhileDUS

theorem sound_dynamicUpdateSlice {update : V} {starts : List V} (hw : w.WellFormed) (henv : w.Holds env)
    (htyped : w.WellTyped typeOf env) (hok : UpdatesOk w typeOf) (hc : c ∈ w.loop.carried)
    (hdef : w.getDefiningOp w.loop.bodyOps c.yield = some (.dynamicUpdateSlice, operand :: update :: starts))
    (hstarts : ∀ s ∈ starts, w.definedOutside s = true)
    (hconditional : getConditionalOperand w c operand = some conditional) :
    Candidate.Sound w typeOf env c ⟨.dynamicUpdateSlice update starts, conditional⟩ := by
  obtain ⟨hbase, hout⟩ := getConditionalOperand_spec hconditional
  obtain ⟨hfits, hindex⟩ := hok.dynamicUpdateSlice _ _ _ _ hdef
  refine ⟨fun update' starts' heq => ?_, ?_, hout, fun n σ e hσ he e' hagree => ⟨e', rfl, ?_, ?_⟩⟩
  · obtain ⟨rfl, rfl⟩ := Update.dynamicUpdateSlice.inj heq
    exact hstarts
  · have hvals : ∀ s ∈ starts.map env, ValueType.index.Has s := by
      intro s hs
      obtain ⟨v, hv, rfl⟩ := mem_map.mp hs
      rw [← hindex v hv]
      exact htyped.outside v (hstarts v hv)
    obtain ⟨ss, hss, hlen⟩ := exists_toInts hvals
    rw [(htyped.carried c hc).2] at hfits
    exact ⟨ss, hss, by rwa [hlen, length_map]⟩
  · have hupd : e' (.old update) = e update := hagree _ _ hdef update (by simp)
    exact (congrArg Tensor.Value.shape hupd).trans (shape_operand hw htyped hσ he hdef (by simp))
  · have hupd : e' (.old update) = e update := hagree _ _ hdef update (by simp)
    have hvals : starts.map env = starts.map e :=
      map_congr_left fun s hs => (WhileOp.bodyEnv_outside hσ he (hstarts s hs)).symm
    change (Op.dynamicUpdateSlice).eval (e (conditional.getD c.bodyArg) :: e' (.old update) :: starts.map env) =
      some (e c.yield)
    rw [hbase, hupd, hvals]
    exact WhileOp.eval_definingOp hw henv hw.body_ordered he (fun v => WhileOp.bodyEnv_outside hσ he) hdef

variable {dimension : Nat} {ends : Ends V}

/-- The ends of a concatenation are slices of one tensor. -/
theorem isLegalConcatToOneDimDUS_spec {outer : V}
    (h : isLegalConcatToOneDimDUS w typeOf outer dimension operands = some ends) :
    ∃ pre post : Option V, operands = pre.toList ++ (ends.newOps operands ++ post.toList) ∧
      ends.newOps operands ≠ [] ∧ (pre.isSome || post.isSome) = true ∧
      ends.lhsSize typeOf dimension operands = pre.map (fun v => coord (typeOf v).shape dimension) ∧
      coord (typeOf ends.operand).shape dimension = coord (typeOf outer).shape dimension ∧
      (∀ v, pre = some v → ∃ dims, getSlice w v = some (ends.operand, dims) ∧
        lhsOk typeOf outer dimension v ends.operand dims) ∧
      ∀ v, post = some v → ∃ dims, getSlice w v = some (ends.operand, dims) ∧
        rhsOk typeOf outer dimension v ends.operand dims := by
  rw [isLegalConcatToOneDimDUS] at h
  obtain ⟨⟨⟩, hlen, h⟩ := bind_eq_some_iff.mp h
  obtain ⟨first, hfirst, h⟩ := bind_eq_some_iff.mp h
  obtain ⟨last, hlast, h⟩ := bind_eq_some_iff.mp h
  obtain ⟨⟨⟩, hlhs, h⟩ := bind_eq_some_iff.mp h
  obtain ⟨⟨⟩, hrhs, h⟩ := bind_eq_some_iff.mp h
  rw [guard_eq_some'] at hlen hlhs hrhs
  -- the operands are the first, those between and the last
  obtain ⟨rest, rfl⟩ : ∃ rest, operands = first :: rest := ⟨operands.tail, (cons_head?_tail hfirst).symm⟩
  have hrest : rest ≠ [] := fun hnil => absurd hlen (by simp [hnil])
  have hlast' : rest.getLast? = some last := by rwa [getLast?_cons_of_ne_nil hrest] at hlast
  obtain ⟨inner, rfl⟩ : ∃ inner, rest = inner ++ [last] :=
    ⟨rest.dropLast, (dropLast_append_getLast? last hlast').symm⟩
  have hleft : ∀ s, getSlice w first = some s → lhsOk typeOf outer dimension first s.1 s.2 := fun s hs => by
    rw [hs] at hlhs
    exact of_decide_eq_true hlhs
  have hright : ∀ s, getSlice w last = some s → rhsOk typeOf outer dimension last s.1 s.2 := fun s hs => by
    rw [hs] at hrhs
    exact of_decide_eq_true hrhs
  cases hl : getSlice w first with
  | none =>
    cases hr : getSlice w last with
    | none =>
      rw [hl, hr] at h
      cases h
    | some r =>
      rw [hl, hr] at h
      obtain ⟨⟨⟩, hsize, h⟩ := bind_eq_some_iff.mp h
      rw [guard_eq_some'] at hsize
      cases h
      have hnew : Ends.newOps ⟨r.1, false, true⟩ (first :: (inner ++ [last])) = first :: inner := by
        simp only [Ends.newOps, ← cons_append, dropLast_concat, if_true, Bool.false_eq_true, if_false]
      refine ⟨none, some last, ?_, ?_, rfl, rfl, hsize, nofun, fun v hv => ?_⟩
      · rw [hnew]
        rfl
      · rw [hnew]
        exact cons_ne_nil _ _
      · cases hv
        exact ⟨r.2, hr, hright r hr⟩
  | some l =>
    cases hr : getSlice w last with
    | none =>
      rw [hl, hr] at h
      obtain ⟨⟨⟩, hsize, h⟩ := bind_eq_some_iff.mp h
      rw [guard_eq_some'] at hsize
      cases h
      refine ⟨some first, none, ?_, hrest, rfl, rfl, hsize, fun v hv => ?_, nofun⟩
      · exact congrArg (first :: ·) (append_nil _).symm
      · cases hv
        exact ⟨l.2, hl, hleft l hl⟩
    | some r =>
      rw [hl, hr] at h
      obtain ⟨⟨⟩, htwo, h⟩ := bind_eq_some_iff.mp h
      obtain ⟨⟨⟩, heq, h⟩ := bind_eq_some_iff.mp h
      obtain ⟨⟨⟩, hsize, h⟩ := bind_eq_some_iff.mp h
      rw [guard_eq_some'] at htwo heq hsize
      cases h
      have hnew : Ends.newOps ⟨r.1, true, true⟩ (first :: (inner ++ [last])) = inner := by
        simp only [Ends.newOps, tail_cons, dropLast_concat, if_true]
      refine ⟨some first, some last, ?_, ?_, rfl, rfl, heq ▸ hsize, fun v hv => ?_, fun v hv => ?_⟩
      · rw [hnew]
        rfl
      · rw [hnew]
        rintro rfl
        exact htwo rfl
      · cases hv
        exact ⟨l.2, heq ▸ hl, heq ▸ hleft l hl⟩
      · cases hv
        exact ⟨r.2, hr, hright r hr⟩

theorem eval_of_concatenate {x : Val α} (hw : w.WellFormed) (henv : w.Holds env)
    (htyped : w.WellTyped typeOf env) (hc : c ∈ w.loop.carried)
    (hσ : w.loop.entering (semantics α) env n = some σ) (he : w.loop.bodyEnv (semantics α) σ = some e)
    (hdef : w.getDefiningOp w.loop.bodyOps c.yield = some (.concatenate dimension, operands))
    (hends : isLegalConcatToOneDimDUS w typeOf c.yield dimension operands = some ends)
    (hx : Pieces dimension (e c.yield).shape ((ends.newOps operands).map fun v => (e v).tensor) x.tensor) :
    (Op.dynamicUpdateSlice).eval (e ends.operand :: x ::
      (replicate (typeOf c.yield).shape.length (ofInt 0)).set dimension
        (ofInt ((ends.lhsSize typeOf dimension operands).elim 0 Int.ofNat))) = some (e c.yield) := by
  have heval : ∀ {v op operands}, w.getDefiningOp w.loop.bodyOps v = some (op, operands) →
      op.eval (operands.map e) = some (e v) := fun hdef =>
    WhileOp.eval_definingOp hw henv hw.body_ordered he (fun v => WhileOp.bodyEnv_outside hσ he) hdef
  obtain ⟨pre, post, hops, hne, hany, hlhs, hsize, hpre, hpost⟩ := isLegalConcatToOneDimDUS_spec hends
  obtain ⟨t, ht, hty⟩ := map_eq_some_iff.mp (heval hdef)
  have hsame : Same (e c.yield).tensor t := hty ▸ Tensor.Value.same_ofTensor t
  have hyield : t.shape = (typeOf c.yield).shape := hsame.shape_eq.symm.trans
    (htyped.has_bodyEnv hw hσ (fun _ hc => htyped.has_entering hw hσ hc) he (hw.yield_scope c hc)).1
  obtain ⟨hd, -, hfits, -⟩ := pieces_of_concatenate ht
  have hmem : ∀ v, v ∈ pre.toList ∨ v ∈ post.toList → v ∈ operands := by
    intro v hv
    rw [hops]
    rcases hv with hv | hv
    · exact mem_append_left _ hv
    · exact mem_append_right _ (mem_append_right _ hv)
  have hrankOf : ∀ v ∈ operands, (typeOf v).shape.length = t.shape.length := by
    intro v hv
    rw [← shape_operand hw htyped hσ he hdef hv]
    have hlen := congrArg List.length (hfits _ (List.mem_map_of_mem (List.mem_map_of_mem hv)))
    rwa [length_set, length_set] at hlen
  -- what is known of each end
  have hend : ∀ v dims, v ∈ operands → getSlice w v = some (ends.operand, dims) →
      (∀ i < (typeOf v).shape.length, (i ≠ dimension →
        coord (typeOf ends.operand).shape i = coord (typeOf c.yield).shape i) ∧ (dimAt dims i).stride = 1 ∧
          ((dimAt dims i).start = 0 ∨ (dimAt dims i).limit = coord (typeOf c.yield).shape i)) →
      (e ends.operand).shape = t.shape ∧ 0 ≤ (dimAt dims dimension).start ∧
        (dimAt dims dimension).start + coord (e v).shape dimension = (dimAt dims dimension).limit ∧
        ∀ idx ∈ indices (t.shape.set dimension 1), ∀ k < coord (e v).shape dimension,
          piece dimension [(e v).tensor] idx k =
            some ((e ends.operand).tensor.get (idx.set dimension ((dimAt dims dimension).start.toNat + k))) := by
    intro v dims hv hslice hdims
    have hdefv := getDefiningOp_of_getSlice hslice
    obtain ⟨s, hs, hsv⟩ := Tensor.Value.lift_eq_some.mp (heval hdefv)
    have hfit := hfits _ (List.mem_map_of_mem (List.mem_map_of_mem hv))
    refine piece_of_end hd hs hsv hfit fun i hi => ?_
    obtain ⟨hother, hstride, hside⟩ := hdims i (hrankOf v hv ▸ hi)
    have hoperand : (e ends.operand).shape = (typeOf ends.operand).shape :=
      shape_operand hw htyped hσ he hdefv mem_cons_self
    rw [hyield]
    refine ⟨(congrArg (coord · i) hoperand).trans ?_, hstride, fun _ => hside⟩
    by_cases hi : i = dimension
    · rw [hi]
      exact hsize
    · exact hother hi
  have hleft : ∀ v, pre = some v → (e ends.operand).shape = t.shape ∧ ∀ idx ∈ indices (t.shape.set dimension 1),
      ∀ k < coord (e v).shape dimension,
        piece dimension [(e v).tensor] idx k = some ((e ends.operand).tensor.get (idx.set dimension k)) := by
    rintro v rfl
    obtain ⟨dims, hslice, hdims⟩ := hpre v rfl
    have hv := hmem v (.inl (mem_singleton_self v))
    obtain ⟨hshape, -, -, hget⟩ := hend v dims hv hslice fun i hi => ⟨(hdims i hi).2.1, (hdims i hi).2.2, .inl (hdims i hi).1⟩
    have hrank : dimension < (typeOf v).shape.length := by
      rw [hrankOf v hv]
      exact hd
    refine ⟨hshape, fun idx hidx k hk => ?_⟩
    rw [hget idx hidx k hk, (hdims dimension hrank).1, Int.toNat_zero, Nat.zero_add]
  have hright : ∀ v, post = some v → (e ends.operand).shape = t.shape ∧ ∃ start : Nat,
      start + coord (e v).shape dimension = coord t.shape dimension ∧ ∀ idx ∈ indices (t.shape.set dimension 1),
        ∀ k < coord (e v).shape dimension,
          piece dimension [(e v).tensor] idx k = some ((e ends.operand).tensor.get (idx.set dimension (start + k))) := by
    rintro v rfl
    obtain ⟨dims, hslice, hdims⟩ := hpost v rfl
    have hv := hmem v (.inr (mem_singleton_self v))
    obtain ⟨hshape, hstart, hlimit, hget⟩ := hend v dims hv hslice fun i hi =>
      ⟨(hdims i hi).2.1, (hdims i hi).2.2, .inr (hdims i hi).1⟩
    have hrank : dimension < (typeOf v).shape.length := by
      rw [hrankOf v hv]
      exact hd
    refine ⟨hshape, _, ?_, hget⟩
    rw [(hdims dimension hrank).1, ← hyield] at hlimit
    omega
  have hlist : (operands.map e).map Tensor.Value.tensor = pre.toList.map (fun v => (e v).tensor) ++
      ((ends.newOps operands).map (fun v => (e v).tensor) ++ post.toList.map fun v => (e v).tensor) := by
    conv_lhs => rw [hops]
    simp only [map_append, List.map_map, comp_def]
  rw [hlist] at ht
  rw [show (e c.yield).shape = t.shape from hsame.shape_eq] at hx
  have htotal := coord_concatenate ht
  rw [total_append, total_append] at htotal
  have hshape : (e ends.operand).shape = t.shape := by
    cases pre with
    | some v => exact (hleft v rfl).1
    | none =>
      obtain ⟨v, rfl⟩ := isSome_iff_exists.mp hany
      exact (hright v rfl).1
  obtain ⟨z, hz, hzt⟩ : ∃ z, Tensor.dynamicUpdateSlice ((replicate t.shape.length 0).set dimension
      (total dimension (pre.toList.map fun v => (e v).tensor) : Int)) x.tensor (e ends.operand).tensor = some z ∧
        Same z t := by
    refine update_of_concatenate ht hx hshape (fun idx hidx k hk => ?_) fun idx hidx k hk => ?_
    · cases pre with
      | none => exact absurd hk (Nat.not_lt_zero k)
      | some v => exact (hleft v rfl).2 idx hidx k hk
    · cases post with
      | none => exact absurd hk (Nat.not_lt_zero k)
      | some v =>
        obtain ⟨-, start, hstart, hget⟩ := hright v rfl
        have hlast : total dimension ((some v).toList.map fun v => (e v).tensor) = coord (e v).shape dimension := rfl
        have heq : start = total dimension (pre.toList.map fun v => (e v).tensor) +
            total dimension ((ends.newOps operands).map fun v => (e v).tensor) := by omega
        rw [← heq]
        exact hget idx hidx k hk
  have hstart : ((ends.lhsSize typeOf dimension operands).elim 0 Int.ofNat : Int) =
      total dimension (pre.toList.map fun v => (e v).tensor) := by
    rw [hlhs]
    cases pre with
    | none => rfl
    | some v =>
      rw [map_some, elim_some, ← shape_operand hw htyped hσ he hdef (hmem v (.inl (mem_singleton_self v)))]
      rfl
  have hstarts : ((replicate (typeOf c.yield).shape.length (ofInt 0 : Val α)).set dimension
      (ofInt ((ends.lhsSize typeOf dimension operands).elim 0 Int.ofNat))).map toInt =
        ((replicate t.shape.length 0).set dimension
          (total dimension (pre.toList.map fun v => (e v).tensor) : Int)).map some := by
    rw [hstart, map_set, map_replicate, toInt_ofInt, toInt_ofInt, map_set, map_replicate, hyield]
  change (allSome _).bind _ = _
  rw [hstarts, allSome_map_some, bind_some]
  exact Tensor.Value.lift_eq_some.mpr ⟨z, hz, hzt.trans hsame.symm⟩

section

variable (hw : w.WellFormed) (henv : w.Holds env) (htyped : w.WellTyped typeOf env) (hok : UpdatesOk w typeOf)
  (hc : c ∈ w.loop.carried)

include hw henv htyped hok hc

theorem sound_concatenate (hdef : w.getDefiningOp w.loop.bodyOps c.yield = some (.concatenate dimension, operands))
    (hends : isLegalConcatToOneDimDUS w typeOf c.yield dimension operands = some ends)
    (hconditional : getConditionalOperand w c ends.operand = some conditional) :
    Candidate.Sound w typeOf env c ⟨.concatenate dimension (ends.newOps operands) (typeOf c.yield).shape
      (ends.lhsSize typeOf dimension operands), conditional⟩ := by
  obtain ⟨hbase, hout⟩ := getConditionalOperand_spec hconditional
  obtain ⟨pre, post, hops, hne, -⟩ := isLegalConcatToOneDimDUS_spec hends
  obtain ⟨hd, hfits, hsum⟩ := hok.concatenate _ _ _ hdef
  have hmem : ∀ v ∈ ends.newOps operands, v ∈ operands := fun v hv => by
    rw [hops]
    exact mem_append_right _ (mem_append_left _ hv)
  have hnew : ((ends.newOps operands).map fun v => coord (typeOf v).shape dimension).sum ≤
      coord (typeOf c.yield).shape dimension := by
    conv_rhs => rw [hsum, hops]
    simp only [map_append, sum_append]
    omega
  refine ⟨nofun, ?_, hout, fun n σ e hσ he e' hagree => ?_⟩
  · have hstarts : ((replicate (typeOf c.yield).shape.length (ofInt 0 : Val α)).set dimension
        (ofInt ((ends.lhsSize typeOf dimension operands).elim 0 Int.ofNat))).map toInt =
          ((replicate (typeOf c.yield).shape.length 0).set dimension
            ((ends.lhsSize typeOf dimension operands).elim 0 Int.ofNat)).map some := by
      rw [map_set, map_replicate, toInt_ofInt, toInt_ofInt, map_set, map_replicate]
    refine ⟨_, (congrArg allSome hstarts).trans (allSome_map_some _), ?_, ?_⟩
    · rw [length_set, length_replicate, (htyped.carried c hc).2]
    · change Forall₂ (· ≤ ·) ((typeOf c.yield).shape.set dimension _) _
      rw [(htyped.carried c hc).2] at hnew ⊢
      exact forall₂_set_le hnew
  · have hagree' : ∀ v ∈ ends.newOps operands, e' (.old v) = e v := fun v hv => hagree _ _ hdef v (hmem v hv)
    have hyield : (e c.yield).shape = (typeOf c.yield).shape :=
      (htyped.has_bodyEnv hw hσ (fun _ hc => htyped.has_entering hw hσ hc) he (hw.yield_scope c hc)).1
    have htensors : FitTogether dimension (e c.yield).shape ((ends.newOps operands).map fun v => (e v).tensor) := by
      intro t ht
      obtain ⟨v, hv, rfl⟩ := mem_map.mp ht
      rw [hyield, ← hfits v (hmem v hv), ← shape_operand hw htyped hσ he hdef (hmem v hv)]
      rfl
    obtain ⟨x, hx, e'', hrun, hval⟩ : ∃ x : Val α, Pieces dimension (e c.yield).shape
        ((ends.newOps operands).map fun v => (e v).tensor) x.tensor ∧ ∃ e'', run (semantics α)
          (Update.yields c.result (.concatenate dimension (ends.newOps operands) (typeOf c.yield).shape
            (ends.lhsSize typeOf dimension operands))) e' = some e'' ∧
          e'' (Update.update c.result (.concatenate dimension (ends.newOps operands) (typeOf c.yield).shape
            (ends.lhsSize typeOf dimension operands))) = x := by
      -- a single operand is the update itself
      have hmany : (∃ v, ends.newOps operands = [v]) ∨ ∀ r, Update.yields (α := α) r (.concatenate dimension
          (ends.newOps operands) (typeOf c.yield).shape (ends.lhsSize typeOf dimension operands)) =
            [⟨.yielded r 0, .concatenate dimension, (ends.newOps operands).map .old⟩] ∧ Update.update r (.concatenate
              dimension (ends.newOps operands) (typeOf c.yield).shape (ends.lhsSize typeOf dimension operands)) =
                .yielded r 0 := by
        match h : ends.newOps operands with
        | [] => exact absurd h hne
        | [v] => exact .inl ⟨v, rfl⟩
        | _ :: _ :: _ => exact .inr fun r => ⟨rfl, rfl⟩
      rcases hmany with ⟨v, hv⟩ | hmany
      · rw [hv] at htensors hagree' ⊢
        exact ⟨e v, pieces_one (htensors _ mem_cons_self), e', rfl, hagree' v mem_cons_self⟩
      · obtain ⟨t, ht, hpieces⟩ := concatenate_pieces (hyield ▸ hd) (fun hnil => hne (map_eq_nil_iff.mp hnil)) htensors
        rw [(hmany c.result).1, (hmany c.result).2]
        refine ⟨.ofTensor t, hpieces.of_same (Tensor.Value.same_ofTensor t).symm, exists_run_one ?_⟩
        change (concatenate dimension ((((ends.newOps operands).map FormName.old).map e').map Tensor.Value.tensor)).map _ = _
        have hlist : (((ends.newOps operands).map FormName.old).map e').map Tensor.Value.tensor =
            (ends.newOps operands).map fun v => (e v).tensor := by
          rw [List.map_map, List.map_map]
          exact map_congr_left fun v hv => congrArg Tensor.Value.tensor (hagree' v hv)
        rw [hlist, ht, map_some]
    refine ⟨e'', hrun, ?_, ?_⟩
    · have htotal : total dimension ((ends.newOps operands).map fun v => (e v).tensor) =
          ((ends.newOps operands).map fun v => coord (typeOf v).shape dimension).sum := by
        rw [total, List.map_map]
        refine congrArg sum (map_congr_left fun v hv => ?_)
        rw [← shape_operand hw htyped hσ he hdef (hmem v hv)]
        rfl
      rw [hval, show x.shape = _ from hx.shape_eq, hyield, htotal]
      rfl
    · rw [hval]
      change (Op.dynamicUpdateSlice).eval (e (conditional.getD c.bodyArg) :: _) = _
      rw [hbase]
      exact eval_of_concatenate hw henv htyped hc hσ he hdef hends hx

theorem sound (hk : WhileDUS.getCandidate w typeOf c = some k) : k.Sound w typeOf env c := by
  rw [WhileDUS.getCandidate] at hk
  split at hk
  · rename_i operand update starts hdef
    obtain ⟨⟨⟩, hstarts, hk⟩ := bind_eq_some_iff.mp hk
    obtain ⟨conditional, hconditional, hk⟩ := bind_eq_some_iff.mp hk
    cases hk
    exact sound_dynamicUpdateSlice hw henv htyped hok hc hdef ((guard_eq_some' _).mp hstarts) hconditional
  · rename_i dimension operands hdef
    obtain ⟨ends, hends, hk⟩ := bind_eq_some_iff.mp hk
    obtain ⟨conditional, hconditional, hk⟩ := bind_eq_some_iff.mp hk
    cases hk
    exact sound_concatenate hw henv htyped hok hc hdef hends hconditional
  · cases hk

end

end WhileDUS

/-- The values that a region uses are the same, and so are the results. -/
def Preserves (w : WhileOp α V) (p : Program (Op α) (FormName V)) (env : V → Val α) (env' : FormName V → Val α)
    (N : Nat) : Prop :=
  SimulatesTo (semantics α) w.loop p env env' N
    (fun _ e e' => ∀ v, w.loop.Reads Carried.condArg (fun c => hasArgUse w c = true) v → e' (.old v) = e v)
    (fun _ e e' => ∀ v, w.loop.Reads Carried.bodyArg (fun c => hasArgUse w c = true) v → e' (.old v) = e v)
    fun _ σ τ => ∀ v, τ (.old v) = σ v

theorem preserves_updates (N : Nat) (hw : w.WellFormed) (htyped : w.WellTyped typeOf env)
    (hsound : ∀ c ∈ w.loop.carried, ∀ k, getCandidate c = some k → k.Sound w typeOf env c)
    (henv' : ∀ v, env' (.old v) = env v) :
    Preserves w (carryAs w.loop (isCandidate getCandidate) (carryingUpdates w typeOf getCandidate)) env env' N := by
  obtain ⟨hcond, hbody, hexits⟩ := simulatesTo_updates N hw htyped hsound henv'
  have hreads : ∀ {arg : Carried V → V} {v : V}, w.loop.Reads arg (fun c => hasArgUse w c = true) v →
      w.loop.Reads arg (Exact getCandidate) v := fun h c hc =>
    ⟨(h c hc).1, fun heq => exact_of_hasArgUse (hsound c hc) ((h c hc).2 heq)⟩
  refine ⟨fun k hk σ e hσ he => ?_, fun k hk σ e hσ htrue he => ?_, hexits⟩
  · obtain ⟨τ, e', hτ, he', hsame⟩ := hcond k hk σ e hσ he
    exact ⟨τ, e', hτ, he', fun v hv => hsame v (hreads hv)⟩
  · obtain ⟨τ, e', hτ, he', hsame⟩ := hbody k hk σ e hσ htrue he
    exact ⟨τ, e', hτ, he', fun v hv => hsame v (hreads hv)⟩

end

/-- A loop that carries the updates has the same values as the loop in all iterations, and the same results. -/
theorem preserves_of_fixedPlace (w : WhileOp α V) (typeOf : V → ValueType) (env : V → Val α)
    (env' : FormName V → Val α) (N : Nat) (hw : w.WellFormed) (henv : w.Holds env) (htyped : w.WellTyped typeOf env)
    (hok : UpdatesOk w typeOf) (henv' : ∀ v, env' (.old v) = env v) :
    (∀ p, WhileDUS.matchAndRewrite w typeOf = some p → Preserves w p env env' N) ∧
      ∀ p, WhileUpdateWithoutCorners.matchAndRewrite w typeOf = some p → Preserves w p env env' N := by
  refine ⟨fun p h => ?_, fun p h => ?_⟩
  · obtain ⟨-, h⟩ := ite_none_right_eq_some.mp h
    cases h
    exact preserves_updates N hw htyped (fun c hc k hk => WhileDUS.sound hw henv htyped hok hc hk) henv'
  · obtain ⟨-, h⟩ := ite_none_right_eq_some.mp h
    cases h
    exact preserves_updates N hw htyped (fun c hc k hk => WhileUpdateWithoutCorners.sound hw henv htyped hok hc hk) henv'

namespace FixedPlace

/-- A counter to one, an update of the argument at a start from outside, a concatenation with a slice from outside,
and an update of the argument without corners. -/
def loop : WhileOp Unit Nat where
  loop := ⟨[⟨0, 10, 20, 24, 30⟩, ⟨1, 11, 21, 25, 31⟩, ⟨4, 12, 22, 28, 32⟩, ⟨6, 13, 23, 29, 33⟩],
    [⟨15, .compare .LT, [10, 2]⟩], 15,
    [⟨24, .add ⟨64, false⟩, [20, 3]⟩, ⟨25, .dynamicUpdateSlice, [21, 7, 8]⟩, ⟨26, .slice [⟨0, 1, 1⟩], [5]⟩,
      ⟨28, .concatenate 0, [26, 9]⟩, ⟨29, .updateWithoutCorners ⟨0, 1, 2, 1, 1, 2⟩, [23, 14]⟩]⟩
  defs _ := none

def typeOf (v : Nat) : ValueType :=
  ⟨if v ∈ [1, 21, 25, 4, 22, 28, 5] then [3] else if v ∈ [6, 23, 29, 14] then [2, 2] else if v ∈ [7, 26] then [1]
    else if v = 9 then [2] else [], v = 8⟩

def env (v : Nat) : Val Unit :=
  ofInts (typeOf v).shape fun idx => if v = 3 then 1 else if v = 2 then 1 else if v = 0 then 0 else v + (idx.sum : Nat)

def env' : FormName Nat → Val Unit
  | .old v => env v
  | _ => ofInt 0

theorem wellFormed : loop.WellFormed :=
  ⟨by decide, by decide, by decide, by decide, by decide, by decide, by decide, by decide, nofun⟩

theorem wellTyped : loop.WellTyped typeOf env := by
  refine ⟨fun i hi e z hops h => ?_, by decide, fun v _ => ⟨rfl, fun _ idx hidx => ?_⟩⟩
  · simp only [loop, mem_cons, not_mem_nil, or_false] at hi
    rcases hi with rfl | rfl | rfl | rfl | rfl
    · exact ⟨(arith_eq_some.mp h).2.1.trans (hops 20 (by decide)).1, nofun⟩
    · obtain ⟨-, -, -, hshape, -⟩ := eval_dynamicUpdateSlice.mp h
      exact ⟨hshape.trans (hops 21 (by decide)).1, nofun⟩
    · exact ⟨eval_slice_shape h, nofun⟩
    · obtain ⟨t, ht, rfl⟩ := map_eq_some_iff.mp h
      obtain ⟨-, ht⟩ := ite_none_right_eq_some.mp ht
      cases ht
      have h26 : (e 26).tensor.shape = [1] := (hops 26 (by decide)).1
      have h9 : (e 9).tensor.shape = [2] := (hops 9 (by decide)).1
      refine ⟨?_, nofun⟩
      change concatenateShape 0 [(e 26).tensor.shape, (e 9).tensor.shape] = [3]
      rw [h26, h9]
      decide
    · exact ⟨(eval_updateWithoutCorners.mp h).2.1.trans (hops 23 (by decide)).1, nofun⟩
  · exact ⟨_, (Tensor.Value.same_ofTensor _).get_eq idx hidx⟩

theorem updatesOk : UpdatesOk loop typeOf := by
  have hmem : ∀ v op operands, loop.getDefiningOp loop.loop.bodyOps v = some (op, operands) →
      ⟨v, op, operands⟩ ∈ loop.loop.bodyOps := by
    intro v op operands h
    rw [WhileOp.getDefiningOp] at h
    split at h
    · rename_i i hi
      cases some.inj h
      obtain rfl : i.result = v := by simpa using find?_some hi
      exact mem_of_find?_eq_some hi
    · cases h
  refine ⟨fun v operand update starts h => ?_, fun v corners operand update h => ?_, fun v dimension operands h => ?_⟩
  · obtain ⟨rfl, rfl, rfl, rfl⟩ : v = 25 ∧ operand = 21 ∧ update = 7 ∧ starts = [8] := by
      simpa [loop] using hmem _ _ _ h
    exact ⟨⟨rfl, .cons (by decide) .nil⟩, by decide⟩
  · obtain ⟨rfl, -, rfl, rfl⟩ : v = 29 ∧ corners = ⟨0, 1, 2, 1, 1, 2⟩ ∧ operand = 23 ∧ update = 14 := by
      simpa [loop] using hmem _ _ _ h
    rfl
  · obtain ⟨rfl, rfl, rfl⟩ : v = 28 ∧ dimension = 0 ∧ operands = [26, 9] := by simpa [loop] using hmem _ _ _ h
    decide

/-- One iteration with the updates. -/
theorem preserves_one : ∃ p₁ p₂, WhileDUS.matchAndRewrite loop typeOf = some p₁ ∧
    WhileUpdateWithoutCorners.matchAndRewrite loop typeOf = some p₂ ∧
      (loop.loop.exits (semantics Unit) env 1).isSome ∧ Preserves loop p₁ env env' 1 ∧ Preserves loop p₂ env env' 1 := by
  have h := preserves_of_fixedPlace loop typeOf env env' 1 wellFormed nofun wellTyped updatesOk fun _ => rfl
  exact ⟨_, _, rfl, rfl, by decide +kernel, h.1 _ rfl, h.2 _ rfl⟩

end FixedPlace

end EnzymeJax.WhileLoop
