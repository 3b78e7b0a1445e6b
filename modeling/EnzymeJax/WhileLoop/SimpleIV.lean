import EnzymeJax.WhileLoop.Dialect

/-!
# Counters of while loops

`extractSimpleIVInfo` finds a carried value that the condition compares with a value from outside and to which the
body adds a constant. In a loop that ends it does not come back to its start: comparing it with the start tells
the first iteration from the others, also where the addition wraps around.
-/

namespace EnzymeJax.WhileLoop

open Tensor Straightline List Option

/-- A `stablehlo.while` with the operations that define the values outside of it. -/
structure WhileOp (α V : Type) where
  loop : Loop (Op α) V
  defs : V → Option (Op α × List V)

structure IVInfo (V : Type) where
  index : Nat
  step : Int
  limit : V
  start : V
  deriving DecidableEq

variable {α V : Type} [DecidableEq V]

namespace WhileOp

variable (w : WhileOp α V)

/-- The values of the regions, and the results, which the regions do not see either. -/
def inside : List V :=
  w.loop.carried.map Carried.condArg ++ w.loop.condOps.map Instr.result ++
    (w.loop.carried.map Carried.bodyArg ++ w.loop.bodyOps.map Instr.result) ++ w.loop.carried.map Carried.result

def definedOutside (v : V) : Bool := v ∉ w.inside

def getDefiningOp (region : List (Instr (Op α) V)) (v : V) : Option (Op α × List V) :=
  match region.find? fun i => i.result = v with
  | some i => some (i.op, i.operands)
  | none => w.defs v

/-- The integer that a value in the body is, if it is a constant. -/
def matchConstant (v : V) : Option Int :=
  match w.getDefiningOp w.loop.bodyOps v with
  | some (.constant x, []) => toInt x
  | _ => none

/-- The operands of the addition that makes the next value of the counter. -/
def ivStep (c : Carried V) : Option Int :=
  match w.getDefiningOp w.loop.bodyOps c.yield with
  | some (.add _, [a, b]) =>
    (if a = c.bodyArg then w.matchConstant b else none).or (if b = c.bodyArg then w.matchConstant a else none)
  | _ => none

def extractSimpleIVInfo : Option (IVInfo V) :=
  match w.getDefiningOp w.loop.condOps w.loop.test with
  | some (.compare direction, [lhs, rhs]) => do
    let index ← w.loop.carried.findIdx? fun c =>
      (lhs = c.condArg ∧ (direction = .LT ∨ direction = .NE)) ∨ (rhs = c.condArg ∧ (direction = .GT ∨ direction = .NE))
    let c ← w.loop.carried[index]?
    -- also where the counter is on the right
    let limit := rhs
    guard (w.definedOutside limit)
    let step ← w.ivStep c
    return ⟨index, step, limit, c.operand⟩
  | _ => none

/-- What the condition can use. -/
def CondScope (v : V) : Prop := w.definedOutside v = true ∨ (∃ c ∈ w.loop.carried, c.condArg = v) ∨
  ∃ i ∈ w.loop.condOps, i.result = v

/-- What the body can use. -/
def BodyScope (v : V) : Prop := w.definedOutside v = true ∨ (∃ c ∈ w.loop.carried, c.bodyArg = v) ∨
  ∃ i ∈ w.loop.bodyOps, i.result = v

instance (v : V) : Decidable (w.CondScope v) := inferInstanceAs (Decidable (_ ∨ _ ∨ _))

instance (v : V) : Decidable (w.BodyScope v) := inferInstanceAs (Decidable (_ ∨ _ ∨ _))

/-- What the verifier asks of the operation: every value is defined once and before it is used, and the
values outside do not depend on it. -/
structure WellFormed : Prop where
  nodup : w.inside.Nodup
  cond_ordered : Ordered w.loop.condOps
  body_ordered : Ordered w.loop.bodyOps
  cond_scope : ∀ i ∈ w.loop.condOps, ∀ v ∈ i.operands, w.CondScope v
  test_scope : w.CondScope w.loop.test
  body_scope : ∀ i ∈ w.loop.bodyOps, ∀ v ∈ i.operands, w.BodyScope v
  yield_scope : ∀ c ∈ w.loop.carried, w.BodyScope c.yield
  operand_outside : ∀ c ∈ w.loop.carried, w.definedOutside c.operand = true
  defs_outside : ∀ v op operands, w.defs v = some (op, operands) → w.definedOutside v = true ∧
    ∀ a ∈ operands, w.definedOutside a = true

/-- The values outside are what their operations make of their operands. -/
def Holds (env : V → Val α) : Prop :=
  ∀ v op operands, w.defs v = some (op, operands) → op.eval (operands.map env) = some (env v)

variable {w} {env e : V → Val α} {σ σ' : V → Val α} {v : V} {k n : Nat}

theorem mem_outside (h : w.definedOutside v = true) : v ∉ w.inside := of_decide_eq_true h

variable {i : Instr (Op α) V} {operands : List V}

section

variable (hout : w.definedOutside v = true)

include hout

variable {c : Carried V}

theorem condArg_ne (hc : c ∈ w.loop.carried) : c.condArg ≠ v := fun heq =>
  mem_outside hout (by simp only [inside, mem_append, List.mem_map]; exact .inl (.inl (.inl ⟨c, hc, heq⟩)))

theorem condOp_ne (hi : i ∈ w.loop.condOps) : i.result ≠ v := fun heq =>
  mem_outside hout (by simp only [inside, mem_append, List.mem_map]; exact .inl (.inl (.inr ⟨i, hi, heq⟩)))

theorem bodyArg_ne (hc : c ∈ w.loop.carried) : c.bodyArg ≠ v := fun heq =>
  mem_outside hout (by simp only [inside, mem_append, List.mem_map]; exact .inl (.inr (.inl ⟨c, hc, heq⟩)))

theorem bodyOp_ne (hi : i ∈ w.loop.bodyOps) : i.result ≠ v := fun heq =>
  mem_outside hout (by simp only [inside, mem_append, List.mem_map]; exact .inl (.inr (.inr ⟨i, hi, heq⟩)))

theorem result_ne (hc : c ∈ w.loop.carried) : c.result ≠ v := fun heq =>
  mem_outside hout (by simp only [inside, mem_append, List.mem_map]; exact .inr ⟨c, hc, heq⟩)

end

namespace WellFormed

variable (hw : w.WellFormed)

include hw

theorem nodup_condArg : (w.loop.carried.map Carried.condArg).Nodup := by
  have h := hw.nodup
  simp only [inside, nodup_append] at h
  exact h.1.1.1

theorem nodup_bodyArg : (w.loop.carried.map Carried.bodyArg).Nodup := by
  have h := hw.nodup
  simp only [inside, nodup_append] at h
  exact h.1.2.1.1

theorem nodup_result : (w.loop.carried.map Carried.result).Nodup := by
  have h := hw.nodup
  simp only [inside, nodup_append] at h
  exact h.2.1

variable {c : Carried V}

theorem condOp_ne_condArg (hi : i ∈ w.loop.condOps) (hc : c ∈ w.loop.carried) : i.result ≠ c.condArg := by
  have h := hw.nodup
  simp only [inside, nodup_append] at h
  exact (h.1.1.2.2 _ (mem_map_of_mem hc) _ (mem_map_of_mem hi)).symm

theorem bodyOp_ne_bodyArg (hi : i ∈ w.loop.bodyOps) (hc : c ∈ w.loop.carried) : i.result ≠ c.bodyArg := by
  have h := hw.nodup
  simp only [inside, nodup_append] at h
  exact (h.1.2.1.2.2 _ (mem_map_of_mem hc) _ (mem_map_of_mem hi)).symm

theorem result_ne_of_inside {u : V} (hc : c ∈ w.loop.carried)
    (hu : u ∈ w.loop.carried.map Carried.condArg ++ w.loop.condOps.map Instr.result ++
      (w.loop.carried.map Carried.bodyArg ++ w.loop.bodyOps.map Instr.result)) : c.result ≠ u := by
  have h := hw.nodup
  rw [inside, nodup_append] at h
  exact (h.2.2 u hu _ (mem_map_of_mem hc)).symm

theorem result_ne_of_condScope (hv : w.CondScope v) (hc : c ∈ w.loop.carried) : c.result ≠ v := by
  rcases hv with hout | ⟨c', hc', rfl⟩ | ⟨i, hi, rfl⟩
  · exact result_ne hout hc
  · exact hw.result_ne_of_inside hc (mem_append_left _ (mem_append_left _ (mem_map_of_mem hc')))
  · exact hw.result_ne_of_inside hc (mem_append_left _ (mem_append_right _ (mem_map_of_mem hi)))

theorem result_ne_of_bodyScope (hv : w.BodyScope v) (hc : c ∈ w.loop.carried) : c.result ≠ v := by
  rcases hv with hout | ⟨c', hc', rfl⟩ | ⟨i, hi, rfl⟩
  · exact result_ne hout hc
  · exact hw.result_ne_of_inside hc (mem_append_right _ (mem_append_left _ (mem_map_of_mem hc')))
  · exact hw.result_ne_of_inside hc (mem_append_right _ (mem_append_right _ (mem_map_of_mem hi)))

theorem bodyScope_of_definingOp {op : Op α} (h : w.getDefiningOp w.loop.bodyOps v = some (op, operands)) :
    ∀ a ∈ operands, w.BodyScope a := by
  rw [getDefiningOp] at h
  split at h
  · rename_i i hi
    cases some.inj h
    exact hw.body_scope i (mem_of_find?_eq_some hi)
  · exact fun a ha => .inl ((hw.defs_outside v op operands h).2 a ha)

end WellFormed

/-! ### The values in the regions -/

theorem eval_definingOp {region : List (Instr (Op α) V)} {e₀ : V → Val α} {op : Op α} (hw : w.WellFormed)
    (henv : w.Holds env) (hordered : Ordered region) (hrun : run (semantics α) region e₀ = some e)
    (hout : ∀ v, w.definedOutside v = true → e v = env v)
    (hdef : w.getDefiningOp region v = some (op, operands)) : op.eval (operands.map e) = some (e v) := by
  rw [getDefiningOp] at hdef
  split at hdef
  · rename_i i hi
    cases some.inj hdef
    have hres : i.result = v := by simpa using find?_some hi
    exact hres ▸ eval_of_run hordered hrun (mem_of_find?_eq_some hi)
  · obtain ⟨hv, hops⟩ := hw.defs_outside v op operands hdef
    rw [hout v hv, map_congr_left fun a ha => hout a (hops a ha)]
    exact henv v op operands hdef

section

variable (hσ : w.loop.entering (semantics α) env k = some σ)

include hσ

theorem entering_outside (hout : w.definedOutside v = true) : σ v = env v :=
  Loop.entering_outside hσ fun _ hc => result_ne hout hc

theorem condEnv_outside (he : w.loop.condEnv (semantics α) σ = some e) (hout : w.definedOutside v = true) :
    e v = env v := by
  rw [run_frame he fun i hi => condOp_ne hout hi, assign_of_ne fun c hc => condArg_ne hout hc, entering_outside hσ hout]

theorem bodyEnv_outside (he : w.loop.bodyEnv (semantics α) σ = some e) (hout : w.definedOutside v = true) :
    e v = env v := by
  rw [run_frame he fun i hi => bodyOp_ne hout hi, assign_of_ne fun c hc => bodyArg_ne hout hc, entering_outside hσ hout]

end

theorem condEnv_condArg (hw : w.WellFormed) (he : w.loop.condEnv (semantics α) σ = some e) {c : Carried V}
    (hc : c ∈ w.loop.carried) : e c.condArg = σ c.result := by
  rw [run_frame he fun i hi => hw.condOp_ne_condArg hi hc, assign_of_mem hw.nodup_condArg hc]

theorem bodyEnv_bodyArg (hw : w.WellFormed) (he : w.loop.bodyEnv (semantics α) σ = some e) {c : Carried V}
    (hc : c ∈ w.loop.carried) : e c.bodyArg = σ c.result := by
  rw [run_frame he fun i hi => hw.bodyOp_ne_bodyArg hi hc, assign_of_mem hw.nodup_bodyArg hc]

theorem next_result (hw : w.WellFormed) (he : w.loop.bodyEnv (semantics α) σ = some e)
    (hnext : w.loop.next (semantics α) σ = some σ') {c : Carried V} (hc : c ∈ w.loop.carried) :
    σ' c.result = e c.yield := by
  rw [Loop.next, he] at hnext
  cases hnext
  exact assign_of_mem hw.nodup_result hc

theorem start_result (hw : w.WellFormed) {c : Carried V} (hc : c ∈ w.loop.carried) :
    w.loop.start env c.result = env c.operand := assign_of_mem hw.nodup_result hc

/-! ### The counter -/

theorem matchConstant_spec {m : Int} (hw : w.WellFormed) (henv : w.Holds env)
    (hσ : w.loop.entering (semantics α) env k = some σ) (he : w.loop.bodyEnv (semantics α) σ = some e)
    (h : w.matchConstant v = some m) : e v = ofInt m := by
  rw [matchConstant] at h
  split at h
  · rename_i x hdef
    have heval := eval_definingOp hw henv hw.body_ordered he (fun v => bodyEnv_outside hσ he) hdef
    rw [← some.inj heval]
    obtain ⟨a, ha, hint⟩ := bind_eq_some_iff.mp h
    rw [Tensor.Value.eq_scalar ha]
    cases a with
    | int n => exact congrArg ofInt (some.inj hint)
    | pred b | data a => cases hint
  · cases h

/-- What is known of a counter. -/
structure IsCounter (w : WhileOp α V) (info : IVInfo V) (c : Carried V) : Prop where
  getElem_index : w.loop.carried[info.index]? = some c
  start_eq : info.start = c.operand
  limit_outside : w.definedOutside info.limit = true
  test : ∃ direction, w.getDefiningOp w.loop.condOps w.loop.test = some (.compare direction, [c.condArg, info.limit])
  step : w.ivStep c = some info.step

theorem exists_counter (h : w.extractSimpleIVInfo = some info) : ∃ c, w.IsCounter info c := by
  rw [extractSimpleIVInfo] at h
  split at h
  · rename_i direction lhs rhs htest
    obtain ⟨index, hindex, h⟩ := bind_eq_some_iff.mp h
    obtain ⟨c, hc, h⟩ := bind_eq_some_iff.mp h
    obtain ⟨_, hguard, h⟩ := bind_eq_some_iff.mp h
    obtain ⟨step, hstep, h⟩ := bind_eq_some_iff.mp h
    cases h
    have hlimit : w.definedOutside rhs = true := by simpa using hguard
    obtain ⟨hlt, hfound, -⟩ := findIdx?_eq_some_iff_getElem.mp hindex
    obtain ⟨_, rfl⟩ := List.getElem?_eq_some_iff.mp hc
    refine ⟨_, hc, rfl, hlimit, ⟨direction, ?_⟩, hstep⟩
    -- on the right the counter would itself be the limit
    have hleft : lhs = w.loop.carried[index].condArg := by
      rcases of_decide_eq_true hfound with h | h
      · exact h.1
      · exact absurd h.1.symm (condArg_ne hlimit (getElem_mem hlt))
    rw [htest, hleft]
  · cases h

theorem eval_compare {direction : ComparisonDirection} {x y z : Val α} : (Op.compare direction).eval [x, y] = some z ↔
    ∃ a b, toInt x = some a ∧ toInt y = some b ∧ ofPred (direction.holds a b) = z := by
  change (do let a ← toInt x; let b ← toInt y; return ofPred (direction.holds a b)) = some z ↔ _
  simp only [bind_eq_bind, bind_eq_some_iff, Option.pure_def, some.injEq]
  exact ⟨fun ⟨a, ha, b, hb, h⟩ => ⟨a, b, ha, hb, h⟩, fun ⟨a, b, ha, hb, h⟩ => ⟨a, ha, b, hb, h⟩⟩

section

variable {info : IVInfo V} {c : Carried V} {b : Bool} (hw : w.WellFormed) (henv : w.Holds env)
  (hcounter : w.IsCounter info c) (hσ : w.loop.entering (semantics α) env k = some σ)

include hcounter

theorem IsCounter.mem : c ∈ w.loop.carried := mem_of_getElem? hcounter.getElem_index

include hw henv hσ

theorem IsCounter.operands_eq (he : w.loop.condEnv (semantics α) σ = some e) : ∃ m l,
    toInt (σ c.result) = some m ∧ toInt (env info.limit) = some l ∧ ∃ direction,
      w.getDefiningOp w.loop.condOps w.loop.test = some (.compare direction, [c.condArg, info.limit]) ∧
        e w.loop.test = ofPred (direction.holds m l) := by
  obtain ⟨direction, hdef⟩ := hcounter.test
  have heval := eval_definingOp hw henv hw.cond_ordered he (fun v => condEnv_outside hσ he) hdef
  rw [map_cons, map_singleton, condEnv_condArg hw he hcounter.mem,
    condEnv_outside hσ he hcounter.limit_outside] at heval
  obtain ⟨m, l, hm, hl, hz⟩ := eval_compare.mp heval
  exact ⟨m, l, hm, hl, direction, hdef, hz.symm⟩

/-- Whether the loop goes on is decided by the counter and the limit. -/
theorem IsCounter.continues_iff : ∃ direction, w.getDefiningOp w.loop.condOps w.loop.test =
      some (.compare direction, [c.condArg, info.limit]) ∧
    ∀ b, w.loop.continues (semantics α) σ = some b → ∃ m l, toInt (σ c.result) = some m ∧
      toInt (env info.limit) = some l ∧ b = direction.holds m l := by
  obtain ⟨direction, hdef⟩ := hcounter.test
  refine ⟨direction, hdef, fun b hb => ?_⟩
  obtain ⟨e, he, htest⟩ := bind_eq_some_iff.mp hb
  obtain ⟨m, l, hm, hl, direction', hdef', hz⟩ := hcounter.operands_eq hw henv hσ he
  rw [hdef] at hdef'
  obtain ⟨rfl, -⟩ := Op.compare.inj (Prod.mk.inj (some.inj hdef')).1
  change toPred (e w.loop.test) = some b at htest
  rw [hz] at htest
  exact ⟨m, l, hm, hl, (some.inj htest).symm⟩

theorem IsCounter.next_eq : ∃ type : IntType, (∃ operands, w.getDefiningOp w.loop.bodyOps c.yield =
      some (.add type, operands)) ∧
    ∀ σ', w.loop.next (semantics α) σ = some σ' → ∃ m, toInt (σ c.result) = some m ∧
      σ' c.result = ofInt (type.wrap (m + info.step)) := by
  have hstep := hcounter.step
  rw [ivStep] at hstep
  split at hstep
  · rename_i type a b hdef
    refine ⟨type, ⟨_, hdef⟩, fun σ' hnext => ?_⟩
    obtain ⟨e, he, -⟩ := map_eq_some_iff.mp hnext
    have heval := eval_definingOp hw henv hw.body_ordered he (fun v => bodyEnv_outside hσ he) hdef
    rw [map_cons, map_singleton] at heval
    rw [next_result hw he hnext hcounter.mem, ← bodyEnv_bodyArg hw he hcounter.mem]
    rcases or_eq_some_iff.mp hstep with h | ⟨-, h⟩
    · rw [ite_none_right_eq_some] at h
      obtain ⟨rfl, hconst⟩ := h
      rw [matchConstant_spec hw henv hσ he hconst] at heval
      obtain ⟨x, hx, hsum⟩ := eval_add_right.mp heval
      exact ⟨x, hx, hsum.symm⟩
    · rw [ite_none_right_eq_some] at h
      obtain ⟨rfl, hconst⟩ := h
      rw [matchConstant_spec hw henv hσ he hconst, eval_add_comm] at heval
      obtain ⟨y, hy, hsum⟩ := eval_add_right.mp heval
      exact ⟨y, hy, hsum.symm⟩
  · cases hstep

end

def NeverBack (w : WhileOp α V) (info : IVInfo V) (c : Carried V) (env : V → Val α) (N : Nat) : Prop :=
  ∀ k σ, 0 < k → k ≤ N → w.loop.entering (semantics α) env k = some σ → σ c.result ≠ env info.start

section

variable {info : IVInfo V} {c : Carried V} (hw : w.WellFormed) (henv : w.Holds env) (hcounter : w.IsCounter info c)

include hw henv hcounter

theorem IsCounter.neverBack (h : w.loop.exits (semantics α) env n = some σ') : w.NeverBack info c env n := by
  intro k σ hpos hk hσ
  obtain ⟨direction, hdef, -⟩ := hcounter.continues_iff hw henv hσ
  obtain ⟨type, ⟨operands, hyield⟩, -⟩ := hcounter.next_eq hw henv hσ
  have hstart : w.loop.start env c.result = env info.start := by
    rw [start_result hw hcounter.mem, hcounter.start_eq]
  rw [← hstart]
  refine Loop.value_ne_start c.result
    (fun x => (toInt x).elim false fun m => (toInt (env info.limit)).elim false fun l => direction.holds m l)
    (fun x => ofInt (type.wrap ((toInt x).getD 0 + info.step))) ?_ ?_ h hpos hk hσ
  · intro j τ b hτ hb
    obtain ⟨direction', hdef', htest⟩ := hcounter.continues_iff hw henv hτ
    obtain ⟨m, l, hm, hl, rfl⟩ := htest b hb
    rw [hdef] at hdef'
    obtain ⟨rfl, -⟩ := Op.compare.inj (Prod.mk.inj (some.inj hdef')).1
    rw [hm, hl]
    rfl
  · intro j τ τ' hτ hnext
    obtain ⟨type', ⟨operands', hyield'⟩, hsum⟩ := hcounter.next_eq hw henv hτ
    obtain ⟨m, hm, hnext⟩ := hsum τ' hnext
    rw [hyield] at hyield'
    obtain ⟨rfl, -⟩ := Op.add.inj (Prod.mk.inj (some.inj hyield')).1
    rw [hnext, hm]
    rfl

theorem IsCounter.eval_firstIter (hback : w.NeverBack info c env n) (hk : k ≤ n)
    (hσ : w.loop.entering (semantics α) env k = some σ) (he : w.loop.condEnv (semantics α) σ = some e) :
    (Op.compare .EQ).eval [σ c.result, env info.start] = some (ofPred (k = 0)) := by
  have hinteger : ∀ j τ e, w.loop.entering (semantics α) env j = some τ →
      w.loop.condEnv (semantics α) τ = some e → ∃ m, toInt (τ c.result) = some m := by
    intro j τ e hτ he
    obtain ⟨m, -, hm, -⟩ := hcounter.operands_eq hw henv hτ he
    exact ⟨m, hm⟩
  obtain ⟨m, hm⟩ := hinteger k σ e hσ he
  rcases eq_zero_or_pos k with rfl | hpos
  · cases hσ
    have hstart : w.loop.start env c.result = env info.start := by
      rw [start_result hw hcounter.mem, hcounter.start_eq]
    refine eval_compare.mpr ⟨m, m, hm, hstart ▸ hm, congrArg ofPred ?_⟩
    simp [ComparisonDirection.holds]
  · obtain ⟨τ, -, hτ, htrue, -⟩ := Loop.exists_executed hσ hpos
    obtain ⟨e₀, he₀, -⟩ := bind_eq_some_iff.mp htrue
    obtain ⟨s, hs⟩ := hinteger 0 τ e₀ hτ he₀
    cases hτ
    rw [start_result hw hcounter.mem, ← hcounter.start_eq] at hs
    have hne := hback k σ hpos hk hσ
    rw [eq_ofInt hm, eq_ofInt hs] at hne
    have hms : m ≠ s := fun heq => hne (heq ▸ rfl)
    refine eval_compare.mpr ⟨m, s, hm, hs, congrArg ofPred ?_⟩
    simp [ComparisonDirection.holds, hms, hpos.ne']

end

end WhileOp

end EnzymeJax.WhileLoop
