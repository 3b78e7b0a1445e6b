import EnzymeJax.Library.CarriedForm
import EnzymeJax.WhileLoop.SimpleIV

/-!
# Types of tensors, and updates

The shape of a value and whether its elements are integers. Updates of well-typed operands are defined, and in a
well-typed loop the values of every iteration have their types.
-/

namespace EnzymeJax.WhileLoop

open Tensor Straightline Option
open List hiding allSome

variable {α : Type}

structure ValueType where
  shape : List Nat
  integer : Bool
  deriving DecidableEq

def ValueType.Has (type : ValueType) (x : Val α) : Prop :=
  x.shape = type.shape ∧ (type.integer = true → ∀ idx ∈ indices type.shape, ∃ n, x.tensor.get idx = .int n)

/-- A start index. -/
def ValueType.index : ValueType := ⟨[], true⟩

variable {x update z : Val α} {starts : List (Val α)} {type updateType : ValueType} {corners : Corners}

theorem exists_toInt (h : ValueType.index.Has x) : ∃ n, toInt x = some n := by
  obtain ⟨hshape, hint⟩ := h
  obtain ⟨n, hn⟩ := hint rfl [] (mem_indices_nil.mpr rfl)
  exact ⟨n, toInt_eq_some.mpr ⟨hshape, hn⟩⟩

theorem exists_toInts (h : ∀ s ∈ starts, ValueType.index.Has s) :
    ∃ ss, allSome (starts.map toInt) = some ss ∧ ss.length = starts.length := by
  induction starts with
  | nil => exact ⟨[], rfl, rfl⟩
  | cons s starts ih =>
    obtain ⟨n, hn⟩ := exists_toInt (h s mem_cons_self)
    obtain ⟨ss, hss, hlen⟩ := ih fun s hs => h s (mem_cons_of_mem _ hs)
    refine ⟨n :: ss, ?_, congrArg (· + 1) hlen⟩
    rw [map_cons, hn, allSome, hss, map_some]

theorem eval_dynamicUpdateSlice : (Op.dynamicUpdateSlice).eval (x :: update :: starts) = some z ↔
    ∃ ss, allSome (starts.map toInt) = some ss ∧ DynamicSliceOk x.shape update.shape ss.length ∧ z.shape = x.shape ∧
      ∀ idx ∈ indices x.shape, z.tensor.get idx =
        ((regionIndex (zipWith3 clampStart x.shape update.shape ss) update.shape idx).map
          update.tensor.get).getD (x.tensor.get idx) := by
  change (allSome (starts.map toInt)).bind (fun ss => x.lift (Tensor.dynamicUpdateSlice ss update.tensor)) = some z ↔ _
  rw [bind_eq_some_iff]
  refine exists_congr fun ss => and_congr_right fun _ => ?_
  exact Tensor.Value.lift_eq_some_of_eq_ite (Tensor.dynamicUpdateSlice.eq_1 ..)

theorem eval_updateWithoutCorners : (Op.updateWithoutCorners corners).eval [x, update] = some z ↔
    x.shape = update.shape ∧ z.shape = x.shape ∧ ∀ idx ∈ indices x.shape,
      z.tensor.get idx = if corners.Has idx then x.tensor.get idx else update.tensor.get idx := by
  change x.lift (EnzymeJax.updateWithoutCorners corners update.tensor) = some z ↔ _
  exact Tensor.Value.lift_eq_some_of_eq_ite (EnzymeJax.updateWithoutCorners.eq_1 ..)

variable {sizes a b : List Nat} {y update' : Val α}

theorem eval_dynamicSlice : (Op.dynamicSlice sizes).eval (x :: starts) = some z ↔
    ∃ ss, allSome (starts.map toInt) = some ss ∧ DynamicSliceOk x.shape sizes ss.length ∧ z.shape = sizes ∧
      ∀ idx ∈ indices sizes, z.tensor.get idx = x.tensor.get (dynamicIndex x.shape sizes ss idx) := by
  change (allSome (starts.map toInt)).bind (fun ss => x.lift (Tensor.dynamicSlice ss sizes)) = some z ↔ _
  rw [bind_eq_some_iff]
  refine exists_congr fun ss => and_congr_right fun _ => ?_
  exact Tensor.Value.lift_eq_some_of_eq_ite (Tensor.dynamicSlice.eq_1 ..)

theorem eval_dynamicUpdateSlice_twice (hshape : update'.shape = update.shape)
    (h : (Op.dynamicUpdateSlice).eval (x :: update :: starts) = some y)
    (h' : (Op.dynamicUpdateSlice).eval (y :: update' :: starts) = some z) :
    (Op.dynamicUpdateSlice).eval (x :: update' :: starts) = some z := by
  obtain ⟨ss, hss, -, hy, hget⟩ := eval_dynamicUpdateSlice.mp h
  obtain ⟨ss', hss', hok, hz, hget'⟩ := eval_dynamicUpdateSlice.mp h'
  cases hss.symm.trans hss'
  rw [hy] at hok hz hget'
  refine eval_dynamicUpdateSlice.mpr ⟨ss, hss, hok, hz, fun idx hidx => ?_⟩
  rw [hget' idx hidx, hget idx hidx, hshape]
  cases regionIndex (zipWith3 clampStart x.shape update.shape ss) update.shape idx with
  | none | some j => rfl

theorem eval_dynamicUpdateSlice_dynamicSlice (h : (Op.dynamicSlice sizes).eval (x :: starts) = some update) :
    (Op.dynamicUpdateSlice).eval (x :: update :: starts) = some x := by
  obtain ⟨ss, hss, hok, rfl, hget⟩ := eval_dynamicSlice.mp h
  refine eval_dynamicUpdateSlice.mpr ⟨ss, hss, hok, rfl, fun idx hidx => ?_⟩
  have hlen := length_of_mem_indices hidx
  have hsizes : update.shape.length = idx.length := hok.2.length_eq.trans hlen.symm
  have hstarts : (zipWith3 clampStart x.shape update.shape ss).length = idx.length :=
    (length_clampStarts hok.1 (hsizes.trans hlen)).trans hlen.symm
  cases hregion : regionIndex (zipWith3 clampStart x.shape update.shape ss) update.shape idx with
  | none => rfl
  | some j =>
    change x.tensor.get idx = update.tensor.get j
    rw [hget j (regionIndex_mem hstarts hsizes hregion), dynamicIndex, add_of_regionIndex hstarts hsizes hregion]

theorem eval_updateWithoutCorners_twice (h : (Op.updateWithoutCorners corners).eval [x, update] = some y)
    (h' : (Op.updateWithoutCorners corners).eval [y, update'] = some z) :
    (Op.updateWithoutCorners corners).eval [x, update'] = some z := by
  obtain ⟨-, hy, hget⟩ := eval_updateWithoutCorners.mp h
  obtain ⟨hshape, hz, hget'⟩ := eval_updateWithoutCorners.mp h'
  rw [hy] at hshape hz hget'
  refine eval_updateWithoutCorners.mpr ⟨hshape, hz, fun idx hidx => ?_⟩
  rw [hget' idx hidx, hget idx hidx]
  split
  · rfl
  · rfl

theorem eval_updateWithoutCorners_self : (Op.updateWithoutCorners corners).eval [x, x] = some x :=
  eval_updateWithoutCorners.mpr ⟨rfl, rfl, fun _ _ => (ite_self _).symm⟩

theorem forall₂_trans {β : Type} {R : β → β → Prop} (hR : ∀ x y z, R x y → R y z → R x z) {a b c : List β}
    (hab : Forall₂ R a b) (hbc : Forall₂ R b c) : Forall₂ R a c := by
  induction hab generalizing c with
  | nil => exact hbc
  | cons h _ ih =>
    cases hbc with
    | cons h' hbc => exact .cons (hR _ _ _ h h') (ih hbc)

theorem forall₂_le_trans {c : List Nat} (hab : Forall₂ (· ≤ ·) a b) (hbc : Forall₂ (· ≤ ·) b c) :
    Forall₂ (· ≤ ·) a c := forall₂_trans (R := (· ≤ ·)) (fun _ _ _ => le_trans) hab hbc

theorem forall₂_set_le {shape : List Nat} {d n : Nat} (h : n ≤ coord shape d) :
    Forall₂ (· ≤ ·) (shape.set d n) shape := by
  induction shape generalizing d with
  | nil => exact .nil
  | cons m shape ih =>
    cases d with
    | zero => exact .cons h (forall₂_refl shape)
    | succ d => exact .cons le_rfl (ih h)

theorem forall₂_le_antisymm (hab : Forall₂ (· ≤ ·) a b) (hba : Forall₂ (· ≤ ·) b a) : a = b := by
  induction hab with
  | nil => rfl
  | cons h _ ih =>
    cases hba with
    | cons h' hba => rw [le_antisymm h h', ih hba]

theorem get_dynamicUpdateSlice_cases {ss : List Int} {idx : List Nat}
    (hok : DynamicSliceOk x.shape update.shape ss.length) (hidx : idx ∈ indices x.shape) :
    regionIndex (zipWith3 clampStart x.shape update.shape ss) update.shape idx = none ∨ ∃ j ∈ indices update.shape,
        regionIndex (zipWith3 clampStart x.shape update.shape ss) update.shape idx = some j := by
  cases hregion : regionIndex (zipWith3 clampStart x.shape update.shape ss) update.shape idx with
  | none => exact .inl rfl
  | some j =>
    have hlen := length_of_mem_indices hidx
    have hsizes : update.shape.length = x.shape.length := hok.2.length_eq
    exact .inr ⟨j, regionIndex_mem ((length_clampStarts hok.1 hsizes).trans hlen.symm)
      (hsizes.trans hlen.symm) hregion, rfl⟩

theorem exists_dynamicUpdateSlice (hx : type.Has x) (hupd : updateType.Has update)
    (hinteger : updateType.integer = type.integer) (hok : DynamicSliceOk type.shape updateType.shape starts.length)
    (hstarts : ∀ s ∈ starts, ValueType.index.Has s) :
    ∃ z, (Op.dynamicUpdateSlice).eval (x :: update :: starts) = some z ∧ type.Has z := by
  obtain ⟨ss, hss, hlen⟩ := exists_toInts hstarts
  have hok' : DynamicSliceOk x.shape update.shape ss.length := by rwa [hx.1, hupd.1, hlen]
  let t : Tensor (Elem α) := ⟨x.shape, fun idx =>
    ((regionIndex (zipWith3 clampStart x.shape update.shape ss) update.shape idx).map update.tensor.get).getD
      (x.tensor.get idx)⟩
  have hget := (Tensor.Value.same_ofTensor t).get_eq
  refine ⟨.ofTensor t, eval_dynamicUpdateSlice.mpr ⟨ss, hss, hok', rfl, hget⟩, hx.1, fun hint idx hidx => ?_⟩
  rw [← hx.1] at hidx
  rw [hget idx hidx]
  rcases get_dynamicUpdateSlice_cases hok' hidx with hregion | ⟨j, hj, hregion⟩
  · change ∃ n, ((regionIndex _ _ idx).map _).getD _ = _
    rw [hregion]
    exact hx.2 hint idx (hx.1 ▸ hidx)
  · change ∃ n, ((regionIndex _ _ idx).map _).getD _ = _
    rw [hregion]
    exact hupd.2 (hinteger.trans hint) j (hupd.1 ▸ hj)

theorem exists_updateWithoutCorners (hx : type.Has x) (hupd : type.Has update) :
    ∃ z, (Op.updateWithoutCorners corners).eval [x, update] = some z ∧ type.Has z := by
  let t : Tensor (Elem α) :=
    ⟨x.shape, fun idx => if corners.Has idx then x.tensor.get idx else update.tensor.get idx⟩
  have hget := (Tensor.Value.same_ofTensor t).get_eq
  refine ⟨.ofTensor t, eval_updateWithoutCorners.mpr ⟨hx.1.trans hupd.1.symm, rfl, hget⟩, hx.1, fun hint idx hidx => ?_⟩
  have hidx' : idx ∈ indices x.shape := by rwa [hx.1]
  rw [hget idx hidx']
  change ∃ n, (if corners.Has idx then _ else _) = _
  split
  · exact hx.2 hint idx hidx
  · exact hupd.2 hint idx hidx

namespace WhileOp

variable {V : Type} [DecidableEq V] {w : WhileOp α V} {typeOf : V → ValueType} {env e σ : V → Val α} {k : Nat}

theorem WellFormed.scoped (hw : w.WellFormed) : w.loop.Scoped fun v => w.definedOutside v = true where
  condArgs := hw.nodup_condArg
  bodyArgs := hw.nodup_bodyArg
  results := hw.nodup_result
  condOps _ hi _ hc := hw.condOp_ne_condArg hi hc
  bodyOps _ hi _ hc := hw.bodyOp_ne_bodyArg hi hc
  condOperands i hi v hv _ hc := hw.result_ne_of_condScope (hw.cond_scope i hi v hv) hc
  bodyOperands i hi v hv _ hc := hw.result_ne_of_bodyScope (hw.body_scope i hi v hv) hc
  test _ hc := hw.result_ne_of_condScope hw.test_scope hc
  yields c' hc' _ hc := hw.result_ne_of_bodyScope (hw.yield_scope c' hc') hc
  operands c' hc' _ hc := result_ne (hw.operand_outside c' hc') hc
  outside _ hv _ hc := ⟨condArg_ne hv hc, bodyArg_ne hv hc, result_ne hv hc⟩

/-- The operations in the body keep the types, and a carried value has one type. -/
structure WellTyped (w : WhileOp α V) (typeOf : V → ValueType) (env : V → Val α) : Prop where
  bodyOps : ∀ i ∈ w.loop.bodyOps, ∀ (e : V → Val α) z, (∀ v ∈ i.operands, (typeOf v).Has (e v)) →
    i.op.eval (i.operands.map e) = some z → (typeOf i.result).Has z
  carried : ∀ c ∈ w.loop.carried, typeOf c.bodyArg = typeOf c.operand ∧ typeOf c.yield = typeOf c.operand
  outside : ∀ v, w.definedOutside v = true → (typeOf v).Has (env v)

section

variable (hw : w.WellFormed) (htyped : w.WellTyped typeOf env) (hσ : w.loop.entering (semantics α) env k = some σ)

include hw htyped hσ

theorem WellTyped.has_bodyEnv (hcarried : ∀ c ∈ w.loop.carried, (typeOf c.operand).Has (σ c.result))
    (he : w.loop.bodyEnv (semantics α) σ = some e) {v : V} (hv : w.BodyScope v) : (typeOf v).Has (e v) := by
  refine good_of_run (G := fun v x => (typeOf v).Has x)
    (B := fun v => w.definedOutside v = true ∨ ∃ c ∈ w.loop.carried, c.bodyArg = v) hw.body_ordered
    (fun i hi v hv => or_assoc.mpr (hw.body_scope i hi v hv)) htyped.bodyOps ?_ he v (or_assoc.mpr hv)
  rintro v (hv | ⟨c, hc, rfl⟩)
  · rw [assign_of_ne fun c hc => bodyArg_ne hv hc, entering_outside hσ hv]
    exact htyped.outside v hv
  · rw [assign_of_mem hw.nodup_bodyArg hc, (htyped.carried c hc).1]
    exact hcarried c hc

theorem WellTyped.has_entering {c : Carried V} (hc : c ∈ w.loop.carried) :
    (typeOf c.operand).Has (σ c.result) := by
  induction k generalizing σ c with
  | zero =>
    cases hσ
    rw [start_result hw hc]
    exact htyped.outside _ (hw.operand_outside c hc)
  | succ k ih =>
    obtain ⟨σ₀, hσ₀, -, hnext⟩ := Loop.entering_succ_eq_some.mp hσ
    obtain ⟨e, he, -⟩ := map_eq_some_iff.mp hnext
    rw [next_result hw he hnext hc, ← (htyped.carried c hc).2]
    exact htyped.has_bodyEnv hw hσ₀ (fun c hc => ih hσ₀ hc) he (hw.yield_scope c hc)

end

end WhileOp

end EnzymeJax.WhileLoop
