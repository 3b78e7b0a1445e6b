import EnzymeJax.WhileLoop.Typing

/-!
# Carried values that are updated in the same way in every iteration

`WhileIdempotentDUS` finds carried values that go through updates with values from outside. Doing that twice is the
same as doing it once, so the updates are made once before the loop, and the value is selected by whether it is
the first iteration.
-/

namespace EnzymeJax.WhileLoop

open Tensor Straightline Option Function
open List hiding allSome

variable {α V : Type} [DecidableEq V]

namespace IdempotentDUS

/-- The values of the new code. -/
inductive Name (V : Type)
  | old (v : V)
  -- an update that is made before the loop
  | moved (v : V)
  | firstIterInCond
  | firstIterInBody
  | zeroIters
  -- what the uses of a value are replaced by
  | selected (v : V)
  deriving DecidableEq

variable (w : WhileOp α V)

/-- The updates that a value goes through, from values outside and the argument. -/
def isIdempotent (arg : V) (fuel : Nat) (v : V) : Option (List V) :=
  if w.definedOutside v then some []
  else match fuel with
    | 0 => none
    | fuel + 1 =>
      let operandUpdates := fun operand =>
        (isIdempotent arg fuel operand).or (if operand = arg then some [] else none)
      match w.loop.bodyOps.find? fun i => i.result = v with
      | some ⟨_, .dynamicUpdateSlice, operand :: update :: startIndices⟩ => do
        let a ← allSome (startIndices.map (isIdempotent arg fuel))
        let b ← isIdempotent arg fuel update
        let c ← operandUpdates operand
        return v :: (a.flatten ++ b ++ c)
      | some ⟨_, .updateWithoutCorners _, [operand, update]⟩ => do
        let b ← isIdempotent arg fuel update
        let c ← operandUpdates operand
        return v :: (b ++ c)
      | _ => none

def useEmpty (resultUsed : V → Bool) (c : Carried V) : Prop :=
  (∀ i ∈ w.loop.bodyOps, c.bodyArg ∉ i.operands) ∧ (∀ c' ∈ w.loop.carried, c'.yield ≠ c.bodyArg) ∧
    (∀ i ∈ w.loop.condOps, c.condArg ∉ i.operands) ∧ w.loop.test ≠ c.condArg ∧ resultUsed c.result = false

instance (resultUsed : V → Bool) (c : Carried V) : Decidable (useEmpty w resultUsed c) :=
  inferInstanceAs (Decidable (_ ∧ _ ∧ _ ∧ _ ∧ _))

/-- The argument and the updates are only used by the updates, and to yield the value. -/
def legal (c : Carried V) (toMove : List V) : Prop :=
  (∀ i ∈ w.loop.bodyOps, (∃ v ∈ c.bodyArg :: toMove, v ∈ i.operands) → i.result ∈ toMove) ∧
    (∀ i ∈ w.loop.condOps, c.condArg ∉ i.operands) ∧ w.loop.test ≠ c.condArg ∧
      ∀ c' ∈ w.loop.carried, c'.yield ∈ c.bodyArg :: toMove → c'.result = c.result

instance (c : Carried V) (toMove : List V) : Decidable (legal w c toMove) :=
  inferInstanceAs (Decidable (_ ∧ _ ∧ _ ∧ _))

def localToMove (resultUsed : V → Bool) (c : Carried V) : Option (List V) :=
  if useEmpty w resultUsed c ∨ w.definedOutside c.yield then none
  else (isIdempotent w c.bodyArg w.loop.bodyOps.length c.yield).filter fun toMove => legal w c toMove

variable (resultUsed : V → Bool)

/-- The value is among those that are selected. -/
def inInds (c : Carried V) : Bool := (localToMove w resultUsed c).isSome

def inds : List (Carried V) := w.loop.carried.filter (inInds w resultUsed)

def toMove : List (Instr (Op α) V) :=
  w.loop.bodyOps.filter fun i => (inds w resultUsed).any fun c =>
    ((localToMove w resultUsed c).getD []).contains i.result

/-- The arguments are mapped to the operands, and the updates to their copies. -/
def mapping (v : V) : Name V :=
  if v ∈ (toMove w resultUsed).map Instr.result then .moved v
  else Straightline.assign w.loop.carried Carried.bodyArg (fun c => .old c.operand) .old v

/-- The selects that replace the uses of some values, by whether it is the first iteration. -/
def selects (firstIter : Name V) (arg : Carried V → V) (used : Carried V → Bool) :
    List (Instr (Op α) (Name V)) :=
  ((inds w resultUsed).filter used).map fun c =>
    ⟨.selected (arg c), .select, [firstIter, .old c.operand, mapping w resultUsed c.yield]⟩

/-- The uses of the values that are selected. -/
def use (arg : Carried V → V) (used : Carried V → Bool) : V → Name V :=
  Straightline.assign ((inds w resultUsed).filter used) arg (fun c => .selected (arg c)) .old

def usedInCond (c : Carried V) : Bool :=
  w.loop.condOps.any (fun i => c.condArg ∈ i.operands) || decide (w.loop.test = c.condArg)

def usedInBody (c : Carried V) : Bool :=
  w.loop.bodyOps.any (fun i => c.bodyArg ∈ i.operands) ||
    w.loop.carried.any fun c' => !inInds w resultUsed c' && decide (c'.yield = c.bodyArg)

def useCond : V → Name V := use w resultUsed Carried.condArg (usedInCond w)

def useBody : V → Name V := use w resultUsed Carried.bodyArg (usedInBody w resultUsed)

def useAfter : V → Name V := use w resultUsed Carried.result fun c => resultUsed c.result

def matchAndRewrite : Option (Program (Op α) (Name V)) := do
  let ivInfo ← w.extractSimpleIVInfo
  guard (ivInfo.step ≠ 0)
  guard (inds w resultUsed ≠ [])
  let iv ← w.loop.carried[ivInfo.index]?
  let carried := w.loop.carried.map fun c => { c.map .old with
    yield := if inInds w resultUsed c then mapping w resultUsed c.yield else useBody w resultUsed c.yield }
  return ⟨(toMove w resultUsed).map (Instr.rename .moved (mapping w resultUsed)), ⟨carried,
      ⟨.firstIterInCond, .compare .EQ, [.old iv.condArg, .old ivInfo.start]⟩ ::
        selects w resultUsed .firstIterInCond Carried.condArg (usedInCond w) ++
        w.loop.condOps.map (Instr.rename .old (useCond w resultUsed)),
      useCond w resultUsed w.loop.test,
      ⟨.firstIterInBody, .compare .EQ, [.old iv.bodyArg, .old ivInfo.start]⟩ ::
        selects w resultUsed .firstIterInBody Carried.bodyArg (usedInBody w resultUsed) ++
        w.loop.bodyOps.map (Instr.rename .old (useBody w resultUsed))⟩,
    ⟨.zeroIters, .compare .EQ, [.old iv.result, .old iv.operand]⟩ ::
      selects w resultUsed .zeroIters Carried.result fun c => resultUsed c.result⟩

/-- What the verifier asks of the types of updates, of carried values, and of the values outside. -/
structure WellTyped (typeOf : V → ValueType) (env : V → Val α) : Prop where
  dynamicUpdateSlice : ∀ i ∈ w.loop.bodyOps, i.op = .dynamicUpdateSlice → ∀ operand update startIndices,
    i.operands = operand :: update :: startIndices → typeOf i.result = typeOf operand ∧
      (typeOf update).integer = (typeOf operand).integer ∧
        DynamicSliceOk (typeOf operand).shape (typeOf update).shape startIndices.length ∧
          ∀ s ∈ startIndices, typeOf s = .index
  updateWithoutCorners : ∀ i ∈ w.loop.bodyOps, ∀ corners, i.op = .updateWithoutCorners corners →
    ∀ operand update, i.operands = [operand, update] → typeOf i.result = typeOf operand ∧
      typeOf update = typeOf operand ∧ corners.dimensionX < (typeOf operand).shape.length
  carried : ∀ c ∈ w.loop.carried, typeOf c.bodyArg = typeOf c.operand ∧ typeOf c.yield = typeOf c.operand
  outside : ∀ v, w.definedOutside v = true → (typeOf v).Has (env v)

/-! ### The updates of a value -/

/-- An update of the operand. -/
structure IsUpdate (i : Instr (Op α) V) (operand update : V) (startIndices : List V) : Prop where
  operands_eq : i.operands = operand :: update :: startIndices
  op : i.op = .dynamicUpdateSlice ∨ ((∃ corners, i.op = .updateWithoutCorners corners) ∧ startIndices = [])

variable {w resultUsed} {arg v : V} {fuel : Nat} {us : List V}

theorem isIdempotent_cases (h : isIdempotent w arg fuel v = some us) :
    (w.definedOutside v = true ∧ us = []) ∨ ∃ fuel', fuel = fuel' + 1 ∧
      ∃ i ∈ w.loop.bodyOps, i.result = v ∧ ∃ operand update startIndices, IsUpdate i operand update startIndices ∧
        ∃ a b c, allSome (startIndices.map (isIdempotent w arg fuel')) = some a ∧
          isIdempotent w arg fuel' update = some b ∧
          (isIdempotent w arg fuel' operand = some c ∨ (operand = arg ∧ c = [])) ∧ us = v :: (a.flatten ++ b ++ c) := by
  have hoperand : ∀ {fuel' operand c}, (isIdempotent w arg fuel' operand).or (if operand = arg then some [] else none) =
      some c → isIdempotent w arg fuel' operand = some c ∨ (operand = arg ∧ c = []) := by
    intro fuel' operand c hc
    rcases or_eq_some_iff.mp hc with hc | ⟨-, hc⟩
    · exact .inl hc
    · obtain ⟨harg, hc⟩ := ite_none_right_eq_some.mp hc
      exact .inr ⟨harg, (some.inj hc).symm⟩
  unfold isIdempotent at h
  split at h
  · rename_i hout
    exact .inl ⟨hout, (some.inj h).symm⟩
  · right
    cases fuel with
    | zero => cases h
    | succ fuel' =>
      refine ⟨fuel', rfl, ?_⟩
      dsimp only at h
      split at h
      · rename_i r operand update startIndices hfind
        obtain ⟨a, ha, h⟩ := bind_eq_some_iff.mp h
        obtain ⟨b, hb, h⟩ := bind_eq_some_iff.mp h
        obtain ⟨c, hc, h⟩ := bind_eq_some_iff.mp h
        exact ⟨_, mem_of_find?_eq_some hfind, by simpa using find?_some hfind, operand, update, startIndices,
          ⟨rfl, .inl rfl⟩, a, b, c, ha, hb, hoperand hc, (some.inj h).symm⟩
      · rename_i r corners operand update hfind
        obtain ⟨b, hb, h⟩ := bind_eq_some_iff.mp h
        obtain ⟨c, hc, h⟩ := bind_eq_some_iff.mp h
        exact ⟨_, mem_of_find?_eq_some hfind, by simpa using find?_some hfind, operand, update, [],
          ⟨rfl, .inr ⟨⟨corners, rfl⟩, rfl⟩⟩, [], b, c, rfl, hb, hoperand hc, (some.inj h).symm⟩
      · cases h

theorem mem_isIdempotent (h : isIdempotent w arg fuel v = some us) : w.definedOutside v = true ∨ v ∈ us := by
  rcases isIdempotent_cases h with ⟨hout, -⟩ | ⟨fuel', -, i, hi, -, operand, update, starts, -, a, b, c, -, -, -, rfl⟩
  · exact .inl hout
  · exact .inr mem_cons_self

theorem exists_of_allSome {β γ : Type} {f : β → Option γ} {xs : List β} {ys : List γ}
    (h : allSome (xs.map f) = some ys) : (∀ x ∈ xs, ∃ y ∈ ys, f x = some y) ∧ ∀ y ∈ ys, ∃ x ∈ xs, f x = some y := by
  induction xs generalizing ys with
  | nil =>
    cases h
    exact ⟨nofun, nofun⟩
  | cons x xs ih =>
    rw [map_cons] at h
    cases hx : f x with
    | none =>
      rw [hx] at h
      cases h
    | some y =>
      rw [hx, allSome] at h
      obtain ⟨ys, hys, rfl⟩ := map_eq_some_iff.mp h
      obtain ⟨hsome, hmem⟩ := ih hys
      constructor
      · intro x' hx'
        rcases mem_cons.mp hx' with rfl | hx'
        · exact ⟨y, mem_cons_self, hx⟩
        · exact (hsome x' hx').imp fun y' hy' => ⟨mem_cons_of_mem _ hy'.1, hy'.2⟩
      · intro y' hy'
        rcases mem_cons.mp hy' with rfl | hy'
        · exact ⟨x, mem_cons_self, hx⟩
        · exact (hmem y' hy').imp fun x' hx' => ⟨mem_cons_of_mem _ hx'.1, hx'.2⟩

theorem exists_update (h : isIdempotent w arg fuel v = some us) {u : V} (hu : u ∈ us) :
    ∃ i ∈ w.loop.bodyOps, i.result = u ∧ (∃ operand update startIndices, IsUpdate i operand update startIndices) ∧
      ∀ x ∈ i.operands, w.definedOutside x = true ∨ x = arg ∨ x ∈ us := by
  induction fuel generalizing v us u with
  | zero =>
    rcases isIdempotent_cases h with ⟨-, rfl⟩ | ⟨fuel', hfuel, -⟩
    · cases hu
    · cases hfuel
  | succ fuel ih =>
    rcases isIdempotent_cases h with ⟨-, rfl⟩ |
      ⟨fuel', hfuel, i, hi, hres, operand, update, starts, hupd, a, b, c, ha, hb, hc, rfl⟩
    · cases hu
    obtain rfl := Nat.succ.inj hfuel
    have hstarts : ∀ {s : V} {us'}, isIdempotent w arg fuel s = some us' → us' ⊆ v :: (a.flatten ++ b ++ c) →
        ∀ u ∈ us', ∃ i ∈ w.loop.bodyOps, i.result = u ∧
          (∃ operand update startIndices, IsUpdate i operand update startIndices) ∧
            ∀ x ∈ i.operands, w.definedOutside x = true ∨ x = arg ∨ x ∈ v :: (a.flatten ++ b ++ c) := by
      intro s us' hs hsub u hu
      obtain ⟨i, hi, hres, hupd, hops⟩ := ih hs hu
      exact ⟨i, hi, hres, hupd, fun x hx => (hops x hx).imp id fun h => h.imp id fun h => hsub h⟩
    have hsub : ∀ us' ∈ a, us' ⊆ v :: (a.flatten ++ b ++ c) := fun us' hus' x hx =>
      mem_cons_of_mem _ (mem_append_left _ (mem_append_left _ (mem_flatten.mpr ⟨us', hus', hx⟩)))
    have hsubUpdate : b ⊆ v :: (a.flatten ++ b ++ c) := fun x hx =>
      mem_cons_of_mem _ (mem_append_left _ (mem_append_right _ hx))
    have hsubOperand : c ⊆ v :: (a.flatten ++ b ++ c) := fun x hx =>
      mem_cons_of_mem _ (mem_append_right _ hx)
    rcases mem_cons.mp hu with rfl | hu
    · refine ⟨i, hi, hres, ⟨operand, update, starts, hupd⟩, fun x hx => ?_⟩
      rw [hupd.operands_eq] at hx
      rcases mem_cons.mp hx with rfl | hx
      · rcases hc with hc | ⟨harg, -⟩
        · exact (mem_isIdempotent hc).imp id fun h => .inr (hsubOperand h)
        · exact .inr (.inl harg)
      · rcases mem_cons.mp hx with rfl | hx
        · exact (mem_isIdempotent hb).imp id fun h => .inr (hsubUpdate h)
        · obtain ⟨us', hus', hs⟩ := (exists_of_allSome ha).1 x hx
          exact (mem_isIdempotent hs).imp id fun h => .inr (hsub us' hus' h)
    · rcases mem_append.mp hu with hu | hu
      · rcases mem_append.mp hu with hu | hu
        · obtain ⟨us', hus', hu⟩ := mem_flatten.mp hu
          obtain ⟨s, -, hs⟩ := (exists_of_allSome ha).2 us' hus'
          exact hstarts hs (hsub us' hus') u hu
        · exact hstarts hb hsubUpdate u hu
      · rcases hc with hc | ⟨-, rfl⟩
        · exact hstarts hc hsubOperand u hu
        · cases hu

/-! ### Idempotence -/

section

variable {typeOf : V → ValueType} {env e e' : V → Val α} {i : Instr (Op α) V} {operand update : V}
  {startIndices : List V}

theorem IsUpdate.typeOf_result (h : IsUpdate i operand update startIndices) (hi : i ∈ w.loop.bodyOps)
    (htyped : WellTyped w typeOf env) : typeOf i.result = typeOf operand ∧
      Forall₂ (· ≤ ·) (typeOf update).shape (typeOf operand).shape ∧ ∀ s ∈ startIndices, typeOf s = .index := by
  rcases h.op with hop | ⟨⟨corners, hop⟩, rfl⟩
  · obtain ⟨hres, -, hok, hstarts⟩ := htyped.dynamicUpdateSlice i hi hop _ _ _ h.operands_eq
    exact ⟨hres, hok.2, hstarts⟩
  · obtain ⟨hres, hupd, -⟩ := htyped.updateWithoutCorners i hi corners hop _ _ h.operands_eq
    exact ⟨hres, hupd ▸ forall₂_same.mpr fun _ _ => le_refl _, nofun⟩

omit [DecidableEq V] in
theorem IsUpdate.shape_eq {z : Val α} (h : IsUpdate i operand update startIndices)
    (heval : i.op.eval (i.operands.map e) = some z) : z.shape = (e operand).shape := by
  rw [h.operands_eq, map_cons, map_cons] at heval
  rcases h.op with hop | ⟨⟨corners, hop⟩, rfl⟩
  · rw [hop] at heval
    obtain ⟨ss, -, -, hz, -⟩ := eval_dynamicUpdateSlice.mp heval
    exact hz
  · rw [hop] at heval
    exact (eval_updateWithoutCorners.mp heval).2.1

theorem shape_eq (htyped : WellTyped w typeOf env) (hout : ∀ v, w.definedOutside v = true → e v = env v)
    (harg : (e arg).shape = (typeOf arg).shape) (h : isIdempotent w arg fuel v = some us)
    (heval : ∀ i ∈ w.loop.bodyOps, i.result ∈ us → i.op.eval (i.operands.map e) = some (e i.result)) :
    (e v).shape = (typeOf v).shape := by
  induction fuel generalizing v us with
  | zero =>
    rcases isIdempotent_cases h with ⟨hv, -⟩ | ⟨fuel', hfuel, -⟩
    · rw [hout v hv]
      exact (htyped.outside v hv).1
    · cases hfuel
  | succ fuel ih =>
    rcases isIdempotent_cases h with ⟨hv, -⟩ |
      ⟨fuel', hfuel, i, hi, rfl, operand, update, starts, hupd, a, b, c, -, -, hc, rfl⟩
    · rw [hout v hv]
      exact (htyped.outside v hv).1
    obtain rfl := Nat.succ.inj hfuel
    rw [hupd.shape_eq (heval i hi mem_cons_self), (hupd.typeOf_result hi htyped).1]
    rcases hc with hc | ⟨rfl, -⟩
    · exact ih hc fun j hj hmem => heval j hj (mem_cons_of_mem _ (mem_append_right _ hmem))
    · exact harg

variable (htyped : WellTyped w typeOf env) (hout : ∀ v, w.definedOutside v = true → e v = env v)
  (hout' : ∀ v, w.definedOutside v = true → e' v = env v) (harg : (e arg).shape = (typeOf arg).shape)
  (harg' : (e' arg).shape = (typeOf arg).shape)

include htyped hout hout' harg harg'

theorem index_eq_index (htype : (typeOf v).shape = []) (h : isIdempotent w arg fuel v = some us)
    (heval : ∀ i ∈ w.loop.bodyOps, i.result ∈ us → i.op.eval (i.operands.map e) = some (e i.result))
    (heval' : ∀ i ∈ w.loop.bodyOps, i.result ∈ us → i.op.eval (i.operands.map e') = some (e' i.result)) :
    e v = e' v := by
  induction fuel generalizing v us with
  | zero =>
    rcases isIdempotent_cases h with ⟨hv, -⟩ | ⟨fuel', hfuel, -⟩
    · rw [hout v hv, hout' v hv]
    · cases hfuel
  | succ fuel ih =>
    have hshape := (shape_eq htyped hout harg h heval).trans htype
    have hshape' := (shape_eq htyped hout' harg' h heval').trans htype
    rcases isIdempotent_cases h with ⟨hv, -⟩ |
      ⟨fuel', hfuel, i, hi, rfl, operand, update, starts, hupd, a, b, c, -, hb, -, rfl⟩
    · rw [hout v hv, hout' v hv]
    obtain rfl := Nat.succ.inj hfuel
    obtain ⟨hres, hle, -⟩ := hupd.typeOf_result hi htyped
    rw [htype.symm.trans (congrArg ValueType.shape hres) |>.symm] at hle
    have hupdateShape : (typeOf update).shape = [] := forall₂_nil_right_iff.mp hle
    have hmem : b ⊆ i.result :: (a.flatten ++ b ++ c) := fun x hx =>
      mem_cons_of_mem _ (mem_append_left _ (mem_append_right _ hx))
    have hsame : e update = e' update := ih hupdateShape hb (fun j hj hj' => heval j hj (hmem hj'))
      fun j hj hj' => heval' j hj (hmem hj')
    have hscalar := (shape_eq htyped hout harg hb fun j hj hj' => heval j hj (hmem hj')).trans hupdateShape
    have hscalar' := (shape_eq htyped hout' harg' hb fun j hj hj' => heval' j hj (hmem hj')).trans hupdateShape
    -- without dimensions the update is all of the result
    have hall : ∀ {e : V → Val α}, (e i.result).shape = [] → (e update).shape = [] →
        i.op.eval (i.operands.map e) = some (e i.result) → e i.result = e update := by
      intro e hshape hscalar heval
      have hoperandShape := (hupd.shape_eq heval).symm.trans hshape
      rw [hupd.operands_eq, map_cons, map_cons] at heval
      rcases hupd.op with hop | ⟨⟨corners, hop⟩, rfl⟩
      · rw [hop] at heval
        obtain ⟨ss, -, hok, -, hget⟩ := eval_dynamicUpdateSlice.mp heval
        refine Tensor.Value.ext ⟨hshape.trans hscalar.symm, fun idx hidx => ?_⟩
        have hidx' : idx ∈ indices (e operand).shape := by
          rw [hoperandShape, ← hshape]
          exact hidx
        rw [hget idx hidx', hoperandShape, hscalar]
        rw [hoperandShape] at hidx'
        obtain rfl := mem_indices_nil.mp hidx'
        rfl
      · have hrank := (htyped.updateWithoutCorners i hi corners hop _ _ hupd.operands_eq).2.2
        rw [← hres, htype] at hrank
        exact absurd hrank (Nat.not_lt_zero _)
    rw [hall hshape hscalar (heval i hi mem_cons_self), hall hshape' hscalar' (heval' i hi mem_cons_self), hsame]

theorem get_eq_or (hle : Forall₂ (· ≤ ·) (typeOf v).shape (typeOf arg).shape) (h : isIdempotent w arg fuel v = some us)
    (heval : ∀ i ∈ w.loop.bodyOps, i.result ∈ us → i.op.eval (i.operands.map e) = some (e i.result))
    (heval' : ∀ i ∈ w.loop.bodyOps, i.result ∈ us → i.op.eval (i.operands.map e') = some (e' i.result))
    {idx : List Nat} (hidx : idx ∈ indices (typeOf v).shape) : (e v).tensor.get idx = (e' v).tensor.get idx ∨
      ((typeOf v).shape = (typeOf arg).shape ∧ (e v).tensor.get idx = (e arg).tensor.get idx ∧
        (e' v).tensor.get idx = (e' arg).tensor.get idx) := by
  induction fuel generalizing v us idx with
  | zero =>
    rcases isIdempotent_cases h with ⟨hv, -⟩ | ⟨fuel', hfuel, -⟩
    · rw [hout v hv, hout' v hv]
      exact .inl rfl
    · cases hfuel
  | succ fuel ih =>
    rcases isIdempotent_cases h with ⟨hv, -⟩ |
      ⟨fuel', hfuel, i, hi, rfl, operand, update, starts, hupd, a, b, c, ha, hb, hc, rfl⟩
    · rw [hout v hv, hout' v hv]
      exact .inl rfl
    obtain rfl := Nat.succ.inj hfuel
    obtain ⟨hres, hupdateLe, hindex⟩ := hupd.typeOf_result hi htyped
    have hmemUpdate : b ⊆ i.result :: (a.flatten ++ b ++ c) := fun x hx =>
      mem_cons_of_mem _ (mem_append_left _ (mem_append_right _ hx))
    have hmemOperand : c ⊆ i.result :: (a.flatten ++ b ++ c) := fun x hx =>
      mem_cons_of_mem _ (mem_append_right _ hx)
    have hmemStarts : ∀ us' ∈ a, us' ⊆ i.result :: (a.flatten ++ b ++ c) := fun us' hus' x hx =>
      mem_cons_of_mem _ (mem_append_left _ (mem_append_left _ (mem_flatten.mpr ⟨us', hus', hx⟩)))
    rw [hres] at hle hidx
    -- what is updated, at the same place
    have hoperand : (e operand).tensor.get idx = (e' operand).tensor.get idx ∨
        ((typeOf i.result).shape = (typeOf arg).shape ∧ (e operand).tensor.get idx = (e arg).tensor.get idx ∧
          (e' operand).tensor.get idx = (e' arg).tensor.get idx) := by
      rw [hres]
      rcases hc with hc | ⟨rfl, -⟩
      · exact ih hle hc (fun j hj hj' => heval j hj (hmemOperand hj')) (fun j hj hj' => heval' j hj (hmemOperand hj')) hidx
      · exact .inr ⟨rfl, rfl, rfl⟩
    have hoperandShape : (e operand).shape = (typeOf operand).shape ∧ (e' operand).shape = (typeOf operand).shape := by
      rcases hc with hc | ⟨rfl, -⟩
      · exact ⟨shape_eq htyped hout harg hc fun j hj hj' => heval j hj (hmemOperand hj'),
          shape_eq htyped hout' harg' hc fun j hj hj' => heval' j hj (hmemOperand hj')⟩
      · exact ⟨harg, harg'⟩
    have hupdateShape := shape_eq htyped hout harg hb fun j hj hj' => heval j hj (hmemUpdate hj')
    have hupdateShape' := shape_eq htyped hout' harg' hb fun j hj hj' => heval' j hj (hmemUpdate hj')
    have hupdateGet : ∀ {j}, j ∈ indices (typeOf update).shape → _ :=
      ih (forall₂_le_trans hupdateLe hle) hb (fun j hj hj' => heval j hj (hmemUpdate hj')) fun j hj hj' => heval' j hj (hmemUpdate hj')
    have heval₀ := heval
    have heval₀' := heval'
    have heval := heval i hi mem_cons_self
    have heval' := heval' i hi mem_cons_self
    rw [hupd.operands_eq, map_cons, map_cons] at heval heval'
    rcases hupd.op with hop | ⟨⟨corners, hop⟩, rfl⟩
    · rw [hop] at heval heval'
      obtain ⟨ss, hss, hok, -, hget⟩ := eval_dynamicUpdateSlice.mp heval
      obtain ⟨ss', hss', hok', -, hget'⟩ := eval_dynamicUpdateSlice.mp heval'
      have hsame : starts.map e = starts.map e' := by
        refine map_congr_left fun s hs => ?_
        obtain ⟨us', hus', hs'⟩ := (exists_of_allSome ha).1 s hs
        exact index_eq_index htyped hout hout' harg harg' (congrArg ValueType.shape (hindex s hs)) hs'
          (fun j hj hj' => heval₀ j hj (hmemStarts us' hus' hj')) fun j hj hj' => heval₀' j hj (hmemStarts us' hus' hj')
      rw [← hsame, hss] at hss'
      cases hss'
      have hidx' : idx ∈ indices (e operand).shape := by rwa [hoperandShape.1]
      rw [hget idx hidx', hget' idx (by rwa [hoperandShape.2])]
      rw [hoperandShape.2, hupdateShape']
      rcases get_dynamicUpdateSlice_cases hok hidx' with hregion | ⟨j, hj, hregion⟩
      · rw [hoperandShape.1, hupdateShape] at hregion ⊢
        rw [hregion]
        exact hoperand
      · rw [hupdateShape] at hj
        rw [hoperandShape.1, hupdateShape] at hregion ⊢
        rw [hregion]
        rcases hupdateGet hj with hsame | ⟨hshape, hpass, hpass'⟩
        · exact .inl hsame
        · -- the update is as large as the operand, and replaces it
          have hfull : (typeOf update).shape = (typeOf operand).shape :=
            forall₂_le_antisymm hupdateLe (hshape ▸ hle)
          rw [hfull, regionIndex_full (by rw [← hoperandShape.1]; exact hok.1) hidx] at hregion
          cases hregion
          exact .inr ⟨by rw [hres, ← hfull, hshape], hpass, hpass'⟩
    · rw [hop] at heval heval'
      obtain ⟨-, -, hget⟩ := eval_updateWithoutCorners.mp heval
      obtain ⟨-, -, hget'⟩ := eval_updateWithoutCorners.mp heval'
      rw [hget idx (by rwa [hoperandShape.1]), hget' idx (by rwa [hoperandShape.2])]
      have hsame := (htyped.updateWithoutCorners i hi corners hop _ _ hupd.operands_eq).2.1
      by_cases hcorner : corners.Has idx
      · rw [if_pos hcorner, if_pos hcorner]
        exact hoperand
      · rw [if_neg hcorner, if_neg hcorner, hres, ← hsame]
        exact hupdateGet (hsame ▸ hidx)

theorem eq_of_updated (htype : typeOf v = typeOf arg) (h : isIdempotent w arg fuel v = some us)
    (heval : ∀ i ∈ w.loop.bodyOps, i.result ∈ us → i.op.eval (i.operands.map e) = some (e i.result))
    (heval' : ∀ i ∈ w.loop.bodyOps, i.result ∈ us → i.op.eval (i.operands.map e') = some (e' i.result))
    (hupdated : e' arg = e arg ∨ e' arg = e v) : e' v = e v := by
  have hshape := shape_eq htyped hout harg h heval
  have hshape' := shape_eq htyped hout' harg' h heval'
  refine Tensor.Value.ext ⟨hshape'.trans hshape.symm, fun idx hidx => ?_⟩
  rw [show (e' v).tensor.shape = (typeOf v).shape from hshape'] at hidx
  rcases get_eq_or htyped hout hout' harg harg' (htype ▸ forall₂_same.mpr fun _ _ => le_refl _) h heval heval'
    hidx with hsame | ⟨-, hpass, hpass'⟩
  · exact hsame.symm
  · rw [hpass']
    rcases hupdated with hupdated | hupdated
    · rw [hupdated, hpass]
    · rw [hupdated]

end

/-! ### The updates before the loop -/

section

variable {typeOf : V → ValueType} {env env' e σ : V → Val α} {c : Carried V} {k n : Nat}

theorem of_localToMove (h : localToMove w resultUsed c = some us) : w.definedOutside c.yield = false ∧
    isIdempotent w c.bodyArg w.loop.bodyOps.length c.yield = some us := by
  rw [localToMove] at h
  obtain ⟨hnot, h⟩ := ite_none_left_eq_some.mp h
  obtain ⟨h, -⟩ := filter_eq_some_iff.mp h
  rw [not_or] at hnot
  exact ⟨Bool.not_eq_true _ ▸ hnot.2, h⟩

theorem exists_of_mem_inds (hc : c ∈ inds w resultUsed) : c ∈ w.loop.carried ∧ ∃ us,
    localToMove w resultUsed c = some us ∧ isIdempotent w c.bodyArg w.loop.bodyOps.length c.yield = some us ∧
      c.yield ∈ us := by
  obtain ⟨hmem, hsome⟩ := mem_filter.mp hc
  obtain ⟨us, hus⟩ := isSome_iff_exists.mp hsome
  obtain ⟨hout, hidem⟩ := of_localToMove hus
  refine ⟨hmem, us, hus, hidem, (mem_isIdempotent hidem).resolve_left ?_⟩
  rw [hout]
  exact Bool.false_ne_true

variable {i : Instr (Op α) V}

theorem mem_toMove : i ∈ toMove w resultUsed ↔ i ∈ w.loop.bodyOps ∧
    ∃ c ∈ inds w resultUsed, ∃ us, localToMove w resultUsed c = some us ∧ i.result ∈ us := by
  rw [toMove, mem_filter, List.any_eq_true]
  refine and_congr_right fun _ => exists_congr fun c => and_congr_right fun hc => ?_
  obtain ⟨-, us, hus, -⟩ := exists_of_mem_inds hc
  rw [hus, getD_some, contains_iff_mem]
  exact ⟨fun h => ⟨us, rfl, h⟩, fun ⟨us', hus', h⟩ => some.inj hus' ▸ h⟩

theorem toMove_ordered (hw : w.WellFormed) : Ordered (toMove w resultUsed) :=
  ⟨hw.body_ordered.1.sublist filter_sublist, fun i hi => hw.body_ordered.2 i (mem_filter.mp hi).1⟩

theorem eq_of_mem_toMove (hw : w.WellFormed) {j : Instr (Op α) V} (hi : i ∈ toMove w resultUsed)
    (hj : j ∈ w.loop.bodyOps) (heq : j.result = i.result) : j = i :=
  hw.body_ordered.eq_of_result_eq hj (mem_toMove.mp hi).1 heq

theorem exists_moved (hw : w.WellFormed) (hi : i ∈ toMove w resultUsed) :
    (∃ operand update startIndices, IsUpdate i operand update startIndices) ∧
      ∀ x ∈ i.operands, (w.definedOutside x = true ∨ ∃ c ∈ w.loop.carried, c.bodyArg = x) ∨
        ∃ j ∈ toMove w resultUsed, j.result = x := by
  obtain ⟨-, c, hc, us, hus, hmem⟩ := mem_toMove.mp hi
  obtain ⟨hcarried, us', hus', hidem, -⟩ := exists_of_mem_inds hc
  cases hus.symm.trans hus'
  obtain ⟨i', hi', hres, hupd, hops⟩ := exists_update hidem hmem
  obtain rfl := eq_of_mem_toMove hw hi hi' hres
  refine ⟨hupd, fun x hx => ?_⟩
  rcases hops x hx with hx | rfl | hx
  · exact .inl (.inl hx)
  · exact .inl (.inr ⟨c, hcarried, rfl⟩)
  · obtain ⟨j, hj, hj', -, -⟩ := exists_update hidem hx
    exact .inr ⟨j, mem_toMove.mpr ⟨hj, c, hc, us, hus, hj' ▸ hx⟩, hj'⟩

theorem exists_run_toMove (hw : w.WellFormed) (htyped : WellTyped w typeOf env)
    (hout : ∀ v, w.definedOutside v = true → env' v = env v)
    (hargs : ∀ c ∈ w.loop.carried, env' c.bodyArg = env c.operand) :
    ∃ e, run (semantics α) (toMove w resultUsed) env' = some e := by
  obtain ⟨e, he, -⟩ : ∃ e, run (semantics α) (toMove w resultUsed) env' = some e ∧
      ∀ i ∈ toMove w resultUsed, (typeOf i.result).Has (e i.result) := by
    refine exists_run_of_good (G := fun v x => (typeOf v).Has x)
      (B := fun v => w.definedOutside v = true ∨ ∃ c ∈ w.loop.carried, c.bodyArg = v)
      (toMove_ordered hw) (fun i hi => (exists_moved hw hi).2) (fun i hi e he => ?_) ?_
    · obtain ⟨operand, update, startIndices, hupd⟩ := (exists_moved hw hi).1
      have hbody := (mem_toMove.mp hi).1
      rw [hupd.operands_eq] at he ⊢
      have hoperand := he operand mem_cons_self
      have hupdated := he update (mem_cons_of_mem _ mem_cons_self)
      rw [map_cons, map_cons]
      rcases hupd.op with hop | ⟨⟨corners, hop⟩, rfl⟩
      · obtain ⟨hres, hinteger, hok, hstarts⟩ := htyped.dynamicUpdateSlice i hbody hop _ _ _ hupd.operands_eq
        rw [hop, hres]
        refine exists_dynamicUpdateSlice hoperand hupdated hinteger (by rwa [length_map]) fun s hs => ?_
        obtain ⟨v, hv, rfl⟩ := mem_map.mp hs
        exact hstarts v hv ▸ he v (mem_cons_of_mem _ (mem_cons_of_mem _ hv))
      · obtain ⟨hres, hsame, -⟩ := htyped.updateWithoutCorners i hbody corners hop _ _ hupd.operands_eq
        rw [hop, hres]
        exact exists_updateWithoutCorners hoperand (hsame ▸ hupdated)
    · rintro v (hv | ⟨c, hc, rfl⟩)
      · refine ⟨fun i hi => WhileOp.bodyOp_ne hv (mem_toMove.mp hi).1, ?_⟩
        rw [hout v hv]
        exact htyped.outside v hv
      · refine ⟨fun i hi => hw.bodyOp_ne_bodyArg (mem_toMove.mp hi).1 hc, ?_⟩
        rw [hargs c hc, (htyped.carried c hc).1]
        exact htyped.outside _ (hw.operand_outside c hc)
  exact ⟨e, he⟩

/-- The values that the updates have if the arguments are the operands. -/
structure Updated (w : WhileOp α V) (resultUsed : V → Bool) (env e : V → Val α) : Prop where
  outside : ∀ v, w.definedOutside v = true → e v = env v
  bodyArg : ∀ c ∈ w.loop.carried, e c.bodyArg = env c.operand
  eval : ∀ i ∈ toMove w resultUsed, i.op.eval (i.operands.map e) = some (e i.result)

theorem mapping_of_mem (hi : i ∈ toMove w resultUsed) :
    mapping w resultUsed i.result = .moved i.result := if_pos (mem_map_of_mem hi)

theorem mapping_of_not_mem (hv : ∀ i ∈ toMove w resultUsed, i.result ≠ v) : mapping w resultUsed v =
    Straightline.assign w.loop.carried Carried.bodyArg (fun c => .old c.operand) .old v :=
  if_neg fun hmem => (mem_map.mp hmem).elim fun i hi => hv i hi.1 hi.2

theorem exists_old {ps : List (Carried V)} {dst : Carried V → V} :
    ∃ u, Straightline.assign ps dst (fun c => Name.old c.operand) .old v = .old u := by
  rw [Straightline.assign]
  cases ps.find? fun p => dst p = v with
  | none => exact ⟨v, rfl⟩
  | some c => exact ⟨c.operand, rfl⟩

theorem mapping_yield (hc : c ∈ inds w resultUsed) : mapping w resultUsed c.yield = .moved c.yield := by
  obtain ⟨-, us, hus, hidem, hmem⟩ := exists_of_mem_inds hc
  obtain ⟨i, hi, hres, -, -⟩ := exists_update hidem hmem
  rw [← hres] at hmem ⊢
  exact mapping_of_mem (mem_toMove.mpr ⟨hi, c, hc, us, hus, hmem⟩)

theorem exists_before {envName : Name V → Val α} (hw : w.WellFormed) (htyped : WellTyped w typeOf env)
    (henv : ∀ v, envName (.old v) = env v) : ∃ e base, Updated w resultUsed env e ∧
      run (semantics α) ((toMove w resultUsed).map (Instr.rename .moved (mapping w resultUsed))) envName = some base ∧
        (∀ v, base (.old v) = env v) ∧ ∀ c ∈ inds w resultUsed, base (.moved c.yield) = e c.yield := by
  have hnotMoved : ∀ v, (∀ i ∈ toMove w resultUsed, i.result ≠ v) → ∀ u, mapping w resultUsed v ≠ .moved u := by
    intro v hv u heq
    rw [mapping_of_not_mem hv] at heq
    obtain ⟨u', hu'⟩ : ∃ u', Straightline.assign w.loop.carried Carried.bodyArg (fun c => Name.old c.operand) .old v =
        .old u' :=
      exists_old
    rw [hu'] at heq
    cases heq
  have hout : ∀ v, w.definedOutside v = true → envName (mapping w resultUsed v) = env v := by
    intro v hv
    rw [mapping_of_not_mem fun i hi => WhileOp.bodyOp_ne hv (mem_toMove.mp hi).1,
      assign_of_ne fun c hc => WhileOp.bodyArg_ne hv hc, henv]
  have hargs : ∀ c ∈ w.loop.carried, envName (mapping w resultUsed c.bodyArg) = env c.operand := by
    intro c hc
    rw [mapping_of_not_mem fun i hi => hw.bodyOp_ne_bodyArg (mem_toMove.mp hi).1 hc,
      assign_of_mem hw.nodup_bodyArg hc, henv]
  obtain ⟨e, he⟩ := exists_run_toMove hw htyped hout hargs
  obtain ⟨base, hbase, hagree⟩ : ∃ base, run (semantics α)
      ((toMove w resultUsed).map (Instr.rename .moved (mapping w resultUsed))) envName = some base ∧
        ∀ v, True → base (mapping w resultUsed v) = e v := by
    refine run_rename (fun _ _ _ _ => trivial) (fun i hi v _ => ⟨fun heq => ?_, fun heq => ?_⟩) (fun _ _ => rfl) he
    · by_contra hne
      by_cases hv : ∃ j ∈ toMove w resultUsed, j.result = v
      · obtain ⟨j, hj, rfl⟩ := hv
        rw [mapping_of_mem hj] at heq
        exact hne (Name.moved.inj heq)
      · exact hnotMoved v (fun j hj hj' => hv ⟨j, hj, hj'⟩) _ heq
    · rw [heq, mapping_of_mem hi]
  refine ⟨e, base, ⟨fun v hv => ?_, fun c hc => ?_, fun i hi => eval_of_run (toMove_ordered hw) he hi⟩, hbase,
    fun v => ?_, fun c hc => ?_⟩
  · rw [run_frame he fun i hi => WhileOp.bodyOp_ne hv (mem_toMove.mp hi).1, hout v hv]
  · rw [run_frame he fun i hi => hw.bodyOp_ne_bodyArg (mem_toMove.mp hi).1 hc, hargs c hc]
  · rw [run_frame hbase, henv]
    intro i hi
    obtain ⟨j, -, rfl⟩ := mem_map.mp hi
    exact nofun
  · rw [← mapping_yield hc, hagree _ trivial]

theorem entering_selected (hw : w.WellFormed) (htyped : WellTyped w typeOf env) (hup : Updated w resultUsed env e)
    (hc : c ∈ inds w resultUsed) (hσ : w.loop.entering (semantics α) env k = some σ) :
    σ c.result = if k = 0 then env c.operand else e c.yield := by
  obtain ⟨hcarried, us, hus, hidem, -⟩ := exists_of_mem_inds hc
  have hmoved : ∀ i ∈ w.loop.bodyOps, i.result ∈ us → i.op.eval (i.operands.map e) = some (e i.result) :=
    fun i hi hmem => hup.eval i (mem_toMove.mpr ⟨hi, c, hc, us, hus, hmem⟩)
  have htypes := htyped.carried c hcarried
  have hoperand := (htyped.outside _ (hw.operand_outside c hcarried)).1
  have harg : (e c.bodyArg).shape = (typeOf c.bodyArg).shape := by rw [hup.bodyArg c hcarried, htypes.1, hoperand]
  induction k generalizing σ with
  | zero =>
    cases hσ
    exact WhileOp.start_result hw hcarried
  | succ k ih =>
    obtain ⟨σ₀, hσ₀, -, hnext⟩ := Loop.entering_succ_eq_some.mp hσ
    obtain ⟨e', he', -⟩ := map_eq_some_iff.mp hnext
    have hentered : e' c.bodyArg = e c.bodyArg ∨ e' c.bodyArg = e c.yield := by
      rw [WhileOp.bodyEnv_bodyArg hw he' hcarried, ih hσ₀, hup.bodyArg c hcarried]
      split
      · exact .inl rfl
      · exact .inr rfl
    have harg' : (e' c.bodyArg).shape = (typeOf c.bodyArg).shape := by
      rcases hentered with hentered | hentered
      · rw [hentered, harg]
      · rw [hentered, shape_eq htyped hup.outside harg hidem hmoved, htypes.1, htypes.2]
    rw [if_neg (Nat.succ_ne_zero k), WhileOp.next_result hw he' hnext hcarried]
    exact eq_of_updated htyped hup.outside (fun v hv => WhileOp.bodyEnv_outside hσ₀ he' hv) harg harg'
      (htypes.2.trans htypes.1.symm) hidem hmoved (fun i hi _ => eval_of_run hw.body_ordered he' hi) hentered

end

/-! ### The selects -/

section

variable {typeOf : V → ValueType} {env e σ : V → Val α} {c : Carried V} {k n N : Nat} {info : IVInfo V}
  {counter : Carried V} {p : Program (Op α) (Name V)}

omit [DecidableEq V] in
theorem old_injective : Function.Injective (Name.old : V → Name V) := fun _ _ => Name.old.inj

theorem nodup_inds {arg : Carried V → V} {used : Carried V → Bool} (hnodup : (w.loop.carried.map arg).Nodup) :
    (((inds w resultUsed).filter used).map arg).Nodup :=
  hnodup.sublist ((filter_sublist.trans filter_sublist).map arg)

theorem mem_inds {used : Carried V → Bool} (hc : c ∈ (inds w resultUsed).filter used) : c ∈ w.loop.carried :=
  (mem_filter.mp (mem_filter.mp hc).1).1

section

variable {arg : Carried V → V} {used : Carried V → Bool}

theorem use_of_mem (hnodup : (w.loop.carried.map arg).Nodup)
    (hc : c ∈ (inds w resultUsed).filter used) : use w resultUsed arg used (arg c) = .selected (arg c) :=
  assign_of_mem (nodup_inds hnodup) hc

theorem use_of_ne (hv : ∀ c ∈ (inds w resultUsed).filter used, arg c ≠ v) : use w resultUsed arg used v = .old v :=
  assign_of_ne hv

theorem run_selects {firstIter : Name V} {b : Bool}
    {e₀ : Name V → Val α} (hnodup : (w.loop.carried.map arg).Nodup) (hfirst : ∀ u, firstIter ≠ .selected u)
    (hval : e₀ firstIter = ofPred b) : ∃ e₁, run (semantics α) (selects w resultUsed firstIter arg used) e₀ = some e₁ ∧
      (∀ v, (∀ u, v ≠ .selected u) → e₁ v = e₀ v) ∧ ∀ c ∈ (inds w resultUsed).filter used,
        e₁ (.selected (arg c)) = if b then e₀ (.old c.operand) else e₀ (.moved c.yield) := by
  rw [selects, map_eq_flatMap]
  refine exists_run_flatMap (fun c hc e he => ?_) (fun c _ i hi hkeep => ?_) ?_
  · refine ⟨_, run_cons_eq_some.mpr ⟨_, ?_, rfl⟩, update_self ..⟩
    rw [map_cons, map_cons, map_singleton, he firstIter hfirst, hval, he (.old _) nofun,
      mapping_yield (mem_filter.mp hc).1, he (.moved _) nofun]
    rfl
  · rw [mem_singleton.mp hi] at hkeep
    exact hkeep _ rfl
  · refine (pairwise_map.mp (nodup_inds hnodup)).imp fun hne i hi heq => ?_
    rw [mem_singleton.mp hi] at heq
    exact hne (Name.selected.inj heq).symm

end

theorem run_region {region : List (Instr (Op α) V)} (arg : Carried V → V) (used : Carried V → Bool)
    (firstIter : Name V) (hw : w.WellFormed) (henv : w.Holds env) (htyped : WellTyped w typeOf env)
    (hctr : w.IsCounter info counter) (hback : w.NeverBack info counter env N) (hk : k ≤ N)
    (hup : Updated w resultUsed env e) (hnodup : (w.loop.carried.map arg).Nodup)
    (hops : ∀ i ∈ region, ∀ c ∈ w.loop.carried, i.result ≠ arg c)
    (hargs : ∀ v, w.definedOutside v = true → ∀ c ∈ w.loop.carried, arg c ≠ v)
    (hfirst : ∀ u, firstIter ≠ .selected u ∧ firstIter ≠ .old u ∧ firstIter ≠ .moved u) {d : V → Val α}
    (hσ : w.loop.entering (semantics α) env k = some σ) (hd : w.loop.condEnv (semantics α) σ = some d)
    {e₀ : Name V → Val α} (he₀ : ∀ v, e₀ (.old v) = Straightline.assign w.loop.carried arg (fun c => σ c.result) σ v)
    (hmoved : ∀ c ∈ inds w resultUsed, e₀ (.moved c.yield) = e c.yield) {e' : V → Val α}
    (he' : run (semantics α) region (Straightline.assign w.loop.carried arg (fun c => σ c.result) σ) = some e') :
    ∃ e₁, run (semantics α) (⟨firstIter, .compare .EQ, [.old (arg counter), .old info.start]⟩ ::
        selects w resultUsed firstIter arg used ++ region.map (Instr.rename .old (use w resultUsed arg used))) e₀ =
        some e₁ ∧ (∀ v, e₁ (use w resultUsed arg used v) = e' v) ∧
      ∀ c ∈ inds w resultUsed, e₁ (.moved c.yield) = e c.yield := by
  have houtside : ∀ v, w.definedOutside v = true → e₀ (.old v) = env v := fun v hv => by
    rw [he₀, assign_of_ne (hargs v hv), WhileOp.entering_outside hσ hv]
  have hcompare : (Op.compare .EQ).eval ([Name.old (arg counter), .old info.start].map e₀) = some (ofPred (k = 0)) := by
    have hstart : w.definedOutside info.start = true := hctr.start_eq ▸ hw.operand_outside _ hctr.mem
    rw [map_cons, map_singleton, houtside _ hstart, he₀, assign_of_mem hnodup hctr.mem]
    exact hctr.eval_firstIter hw henv hback hk hσ hd
  set e₁ := update e₀ firstIter (ofPred (k = 0)) with he₁
  obtain ⟨e₂, he₂, hother, hselected⟩ : ∃ e₂, run (semantics α) (selects w resultUsed firstIter arg used) e₁ = some e₂ ∧
      (∀ v, (∀ u, v ≠ .selected u) → e₂ v = e₁ v) ∧ ∀ c ∈ (inds w resultUsed).filter used,
        e₂ (.selected (arg c)) = if decide (k = 0) then e₁ (.old c.operand) else e₁ (.moved c.yield) :=
    run_selects hnodup (fun u => (hfirst u).1) (update_self ..)
  have hold : ∀ v, e₂ (.old v) = e₀ (.old v) := fun v => by
    rw [hother (.old v) nofun, he₁, update_of_ne (hfirst v).2.1.symm]
  have hmoved' : ∀ v, e₂ (.moved v) = e₀ (.moved v) := fun v => by
    rw [hother (.moved v) nofun, he₁, update_of_ne (hfirst v).2.2.symm]
  obtain ⟨e₃, he₃, hagree⟩ : ∃ e₃, run (semantics α) (region.map (Instr.rename Name.old (use w resultUsed arg used))) e₂ =
      some e₃ ∧ ∀ v, True → e₃ (use w resultUsed arg used v) = e' v := by
    refine run_rename (fun _ _ _ _ => trivial) (fun i hi v _ => ?_) (fun v _ => ?_) he'
    · by_cases hv : ∃ c ∈ (inds w resultUsed).filter used, arg c = v
      · obtain ⟨c, hc, rfl⟩ := hv
        rw [use_of_mem hnodup hc]
        exact iff_of_false nofun (hops i hi c (mem_inds hc)).symm
      · rw [use_of_ne fun c hc heq => hv ⟨c, hc, heq⟩]
        exact ⟨Name.old.inj, congrArg Name.old⟩
    · by_cases hv : ∃ c ∈ (inds w resultUsed).filter used, arg c = v
      · obtain ⟨c, hc, rfl⟩ := hv
        have hinds := (mem_filter.mp hc).1
        rw [use_of_mem hnodup hc, hselected c hc, assign_of_mem hnodup (mem_inds hc),
          entering_selected hw htyped hup hinds hσ, he₁, update_of_ne (hfirst _).2.1.symm,
          update_of_ne (hfirst _).2.2.symm, houtside _ (hw.operand_outside c (mem_inds hc)), hmoved c hinds]
        simp only [decide_eq_true_eq]
      · rw [use_of_ne fun c hc heq => hv ⟨c, hc, heq⟩, hold, he₀]
  refine ⟨e₃, ?_, fun v => hagree v trivial, fun c hc => ?_⟩
  · rw [cons_append]
    refine run_cons_eq_some.mpr ⟨_, hcompare, ?_⟩
    rw [run_append, he₂, bind_some, he₃]
  · rw [run_frame he₃, hmoved', hmoved c hc]
    intro i hi
    obtain ⟨j, -, rfl⟩ := mem_map.mp hi
    exact nofun

theorem matchAndRewrite_eq (h : matchAndRewrite w resultUsed = some p) (hinfo : w.extractSimpleIVInfo = some info)
    (hctr : w.IsCounter info counter) : p = ⟨(toMove w resultUsed).map (Instr.rename .moved (mapping w resultUsed)),
        ⟨w.loop.carried.map fun c => { c.map .old with
            yield := if inInds w resultUsed c then mapping w resultUsed c.yield else useBody w resultUsed c.yield },
          ⟨.firstIterInCond, .compare .EQ, [.old counter.condArg, .old info.start]⟩ ::
            selects w resultUsed .firstIterInCond Carried.condArg (usedInCond w) ++
            w.loop.condOps.map (Instr.rename .old (useCond w resultUsed)),
          useCond w resultUsed w.loop.test,
          ⟨.firstIterInBody, .compare .EQ, [.old counter.bodyArg, .old info.start]⟩ ::
            selects w resultUsed .firstIterInBody Carried.bodyArg (usedInBody w resultUsed) ++
            w.loop.bodyOps.map (Instr.rename .old (useBody w resultUsed))⟩,
        ⟨.zeroIters, .compare .EQ, [.old counter.result, .old counter.operand]⟩ ::
          selects w resultUsed .zeroIters Carried.result fun c => resultUsed c.result⟩ := by
  rw [matchAndRewrite, hinfo] at h
  obtain ⟨info', hinfo', h⟩ := bind_eq_some_iff.mp h
  cases hinfo'
  obtain ⟨-, -, h⟩ := bind_eq_some_iff.mp h
  obtain ⟨-, -, h⟩ := bind_eq_some_iff.mp h
  obtain ⟨iv, hiv, h⟩ := bind_eq_some_iff.mp h
  rw [hctr.getElem_index] at hiv
  cases hiv
  exact (some.inj h).symm

/-- The names of the values in the new program. -/
def uses (w : WhileOp α V) (resultUsed : V → Bool) : Uses V (Name V) :=
  ⟨useCond w resultUsed, useBody w resultUsed, useAfter w resultUsed⟩

/-- In a loop that ends the values of all iterations and the results are as they were. -/
theorem preservesTo_of_idempotent (w : WhileOp α V) (resultUsed : V → Bool) (typeOf : V → ValueType)
    (p : Program (Op α) (Name V)) (env : V → Val α) (envName : Name V → Val α) (n : Nat) (σ : V → Val α)
    (hw : w.WellFormed) (henv : w.Holds env) (htyped : WellTyped w typeOf env)
    (h : matchAndRewrite w resultUsed = some p) (hexits : w.loop.exits (semantics α) env n = some σ)
    (henvName : ∀ v, envName (.old v) = env v) :
    PreservesTo (semantics α) w.loop p (uses w resultUsed) env envName n := by
  obtain ⟨info, hinfo, -⟩ := bind_eq_some_iff.mp h
  obtain ⟨counter, hcounter⟩ := WhileOp.exists_counter hinfo
  have hback := hcounter.neverBack hw henv hexits
  obtain rfl := matchAndRewrite_eq h hinfo hcounter
  obtain ⟨e, base, hup, hbefore, hbase, hbaseMoved⟩ := exists_before hw htyped henvName
  set carried := w.loop.carried.map fun c => { c.map Name.old with
    yield := if inInds w resultUsed c then mapping w resultUsed c.yield else useBody w resultUsed c.yield } with hcarried
  have hresult_ne : ∀ c ∈ carried, ∀ v, c.condArg ≠ .moved v ∧ c.bodyArg ≠ .moved v ∧ c.result ≠ .moved v := by
    intro c hc v
    obtain ⟨c', -, rfl⟩ := List.mem_map.mp hc
    exact ⟨by rintro ⟨⟩, by rintro ⟨⟩, by rintro ⟨⟩⟩
  refine preservesTo_of_simulates (R := fun _ σ τ => (∀ v, τ (.old v) = σ v) ∧
    ∀ c ∈ inds w resultUsed, τ (.moved c.yield) = e c.yield) hbefore ⟨?_, fun c hc => ?_⟩ ?_ ?_ ?_
  · exact assign_rename old_injective (fun _ => rfl) (fun c _ => hbase c.operand) hbase
  · exact (assign_of_ne fun c' hc' => (hresult_ne c' hc' _).2.2).trans (hbaseMoved c hc)
  · rintro k hk σ τ d hσ ⟨hτ, hτMoved⟩ hd
    have hargs : ∀ v, Straightline.assign carried Carried.condArg (fun c => τ c.result) τ (.old v) =
        Straightline.assign w.loop.carried Carried.condArg (fun c => σ c.result) σ v :=
      assign_rename old_injective (fun _ => rfl) (fun c _ => hτ c.result) hτ
    obtain ⟨e', he', hagree, -⟩ := run_region Carried.condArg (usedInCond w) .firstIterInCond hw henv htyped hcounter
      hback hk hup hw.nodup_condArg (fun i hi c hc => hw.condOp_ne_condArg hi hc)
      (fun v hv c hc => WhileOp.condArg_ne hv hc) (fun _ => ⟨by rintro ⟨⟩, by rintro ⟨⟩, by rintro ⟨⟩⟩) hσ hd hargs
      (fun c hc => (assign_of_ne fun c' hc' => (hresult_ne c' hc' _).1).trans (hτMoved c hc)) hd
    exact ⟨e', he', hagree _, fun v _ => hagree v⟩
  · rintro k hk σ τ e' hσ ⟨hτ, hτMoved⟩ htrue he'
    obtain ⟨d, hd, -⟩ := bind_eq_some_iff.mp htrue
    have hargs : ∀ v, Straightline.assign carried Carried.bodyArg (fun c => τ c.result) τ (.old v) =
        Straightline.assign w.loop.carried Carried.bodyArg (fun c => σ c.result) σ v :=
      assign_rename old_injective (fun _ => rfl) (fun c _ => hτ c.result) hτ
    obtain ⟨e'', he'', hagree, hmoved⟩ := run_region Carried.bodyArg (usedInBody w resultUsed) .firstIterInBody hw henv
      htyped hcounter hback hk hup hw.nodup_bodyArg (fun i hi c hc => hw.bodyOp_ne_bodyArg hi hc)
      (fun v hv c hc => WhileOp.bodyArg_ne hv hc) (fun _ => ⟨by rintro ⟨⟩, by rintro ⟨⟩, by rintro ⟨⟩⟩) hσ hd hargs
      (fun c hc => (assign_of_ne fun c' hc' => (hresult_ne c' hc' _).2.1).trans (hτMoved c hc)) he'
    refine ⟨e'', he'', fun v _ => hagree v, fun _ => ⟨?_, fun c hc => ?_⟩⟩
    · refine assign_rename old_injective (fun _ => rfl) (fun c hc => ?_) hτ
      -- what is yielded for the values that are selected is the copy from before the loop
      dsimp only
      split
      · rename_i hinds
        have hc' : c ∈ inds w resultUsed := mem_filter.mpr ⟨hc, hinds⟩
        have hnext : w.loop.entering (semantics α) env (k + 1) = some (Straightline.assign w.loop.carried Carried.result
            (fun c => e' c.yield) σ) :=
          Loop.entering_succ_eq_some.mpr ⟨σ, hσ, htrue, by rw [Loop.next, he', map_some]⟩
        have hvalue := entering_selected hw htyped hup hc' hnext
        rw [assign_of_mem hw.nodup_result hc, if_neg (Nat.succ_ne_zero k)] at hvalue
        rw [mapping_yield hc', hmoved c hc', hvalue]
      · exact hagree c.yield
    · exact (assign_of_ne fun c' hc' => (hresult_ne c' hc' _).2.2).trans (hτMoved c hc)
  · rintro m hm σ' τ hσ' ⟨hτ, hτMoved⟩
    obtain ⟨hend, hfalse⟩ := Loop.exits_eq_some.mp hσ'
    obtain ⟨d, hd, -⟩ := bind_eq_some_iff.mp hfalse
    have hcompare : (Op.compare .EQ).eval ([Name.old counter.result, .old counter.operand].map τ) =
        some (ofPred (m = 0)) := by
      rw [map_cons, map_singleton, hτ, hτ, WhileOp.entering_outside hend
        (hw.operand_outside _ hcounter.mem), ← hcounter.start_eq]
      exact hcounter.eval_firstIter hw henv hback hm hend hd
    set τ₁ := Function.update τ .zeroIters (ofPred (m = 0)) with hτ₁
    have hold : ∀ u, τ₁ (.old u) = σ' u := fun u =>
      (update_of_ne (show Name.old u ≠ .zeroIters by rintro ⟨⟩) ..).trans (hτ u)
    have hmoved : ∀ u, τ₁ (.moved u) = τ (.moved u) := fun u =>
      update_of_ne (show Name.moved u ≠ .zeroIters by rintro ⟨⟩) ..
    obtain ⟨τ₂, hτ₂, hother, hselected⟩ : ∃ τ₂, run (semantics α) (selects w resultUsed .zeroIters Carried.result fun c =>
        resultUsed c.result) τ₁ = some τ₂ ∧ (∀ v, (∀ u, v ≠ .selected u) → τ₂ v = τ₁ v) ∧
          ∀ c ∈ (inds w resultUsed).filter fun c => resultUsed c.result,
            τ₂ (.selected c.result) = if decide (m = 0) then τ₁ (.old c.operand) else τ₁ (.moved c.yield) :=
      run_selects hw.nodup_result (fun _ heq => by cases heq) (update_self ..)
    refine ⟨τ₂, run_cons_eq_some.mpr ⟨_, hcompare, hτ₂⟩, fun v => ?_⟩
    by_cases hv : ∃ c ∈ (inds w resultUsed).filter fun c => resultUsed c.result, c.result = v
    · obtain ⟨c, hc, rfl⟩ := hv
      have hinds := (mem_filter.mp hc).1
      change τ₂ (use w resultUsed Carried.result _ c.result) = _
      rw [use_of_mem hw.nodup_result hc, hselected c hc, entering_selected hw htyped hup hinds hend, hold, hmoved,
        hτMoved c hinds, WhileOp.entering_outside hend (hw.operand_outside c (mem_inds hc))]
      simp only [decide_eq_true_eq]
    · change τ₂ (use w resultUsed Carried.result _ v) = _
      rw [use_of_ne fun c hc heq => hv ⟨c, hc, heq⟩, hother (.old v) (by rintro _ ⟨⟩), hold]

end

/-! ### Two updates, and a counter to two -/

namespace TwoUpdates

def loop : WhileOp Unit Nat where
  loop := ⟨[⟨0, 10, 20, 24, 30⟩, ⟨1, 11, 21, 26, 31⟩], [⟨15, .compare .LT, [10, 2]⟩], 15,
    [⟨24, .add ⟨64, false⟩, [20, 3]⟩, ⟨25, .dynamicUpdateSlice, [21, 4, 3]⟩, ⟨26, .dynamicUpdateSlice, [25, 4, 2]⟩]⟩
  defs v := if v = 3 then some (.constant (ofInt 1), []) else none

def typeOf (v : Nat) : ValueType :=
  ⟨if v ∈ [1, 21, 25, 26] then [4] else if v = 4 then [2] else [], true⟩

def env (v : Nat) : Val Unit := ofInts (typeOf v).shape fun idx => [0, 0, 2, 1, 7 + coord idx 0].getD v 0

def envName : Name Nat → Val Unit
  | .old v => env v
  | _ => ofInt 0

theorem defs_eq {v : Nat} {op : Op Unit} {operands : List Nat} (h : loop.defs v = some (op, operands)) :
    v = 3 ∧ op = .constant (ofInt 1) ∧ operands = [] := by
  obtain ⟨rfl, h⟩ := ite_none_right_eq_some.mp h
  cases some.inj h
  exact ⟨rfl, rfl, rfl⟩

theorem wellFormed : loop.WellFormed := by
  refine ⟨by decide, by decide, by decide, by decide, by decide, by decide, by decide, by decide, ?_⟩
  intro v op operands hv
  obtain ⟨rfl, -, rfl⟩ := defs_eq hv
  exact ⟨by decide, nofun⟩

theorem holds : loop.Holds env := by
  intro v op operands hv
  obtain ⟨rfl, rfl, rfl⟩ := defs_eq hv
  rfl

theorem wellTyped : WellTyped loop typeOf env := by
  refine ⟨fun i hi hop operand update starts hops => ?_, fun i hi corners hop => ?_, by decide,
    fun v _ => ⟨rfl, fun _ idx hidx => ⟨_, get_ofInts hidx⟩⟩⟩
  · simp only [loop, mem_cons, not_mem_nil, or_false] at hi
    rcases hi with rfl | rfl | rfl
    · cases hop
    · obtain ⟨rfl, rfl, rfl⟩ : operand = 21 ∧ update = 4 ∧ starts = [3] := by simpa [eq_comm] using hops
      decide
    · obtain ⟨rfl, rfl, rfl⟩ : operand = 25 ∧ update = 4 ∧ starts = [2] := by simpa [eq_comm] using hops
      decide
  · simp only [loop, mem_cons, not_mem_nil, or_false] at hi
    rcases hi with rfl | rfl | rfl
    · cases hop
    · cases hop
    · cases hop

theorem preservesTo_two : ∃ p, matchAndRewrite loop (fun _ => true) = some p ∧
    PreservesTo (semantics Unit) loop.loop p (uses loop fun _ => true) env envName 2 := by
  have hfires : (matchAndRewrite loop fun _ => true).isSome := by decide +kernel
  have hends : (loop.loop.exits (semantics Unit) env 2).isSome := by decide +kernel
  obtain ⟨p, hp⟩ := isSome_iff_exists.mp hfires
  obtain ⟨σ, hσ⟩ := isSome_iff_exists.mp hends
  exact ⟨p, hp, preservesTo_of_idempotent loop _ typeOf p env envName 2 σ wellFormed holds wellTyped hp hσ fun _ => rfl⟩

end TwoUpdates

end IdempotentDUS

end EnzymeJax.WhileLoop
