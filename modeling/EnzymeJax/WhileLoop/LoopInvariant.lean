import EnzymeJax.WhileLoop.RemoveCarried

/-!
# Carried values that the loop sets to a value from outside

`WhileLICM` removes the carried values that the body sets to a value from outside. It numbers the counter, and the
operands that the arguments of the condition are mapped to, as before the first removal. That is right if at most
one value is removed, or if the counter comes first and the condition uses no argument behind the first of them.
-/

namespace EnzymeJax.WhileLoop

open Tensor Straightline List Option Function

variable {α V : Type} [DecidableEq V]

/-- The values in the regions that `WhileLICM` adds. -/
inductive Name (V : Type)
  | old (v : V)
  -- whether it is the first iteration, in the replacement of a value
  | firstIter (removed : V)
  -- a value of the copy of the condition that is made for a result
  | clone (removed : V) (v : Name V)
  deriving DecidableEq

namespace WhileLICM

variable (hoisting : Hoisting V) (w : WhileOp α V)

def canHoist (inputValue : V) : Bool :=
  w.definedByConstant inputValue ||
    if hoisting.blockArgument inputValue then hoisting.functionArgument inputValue else hoisting.hoistAll

/-- The arguments of the condition are mapped to the operands of the same numbers, and the values that it
defines to their copies. -/
def mapper (condOps : List (Instr (Op α) (Name V))) (carried : List (Carried (Name V))) (removed : V)
    (v : Name V) : Name V :=
  if v ∈ condOps.map Instr.result then .clone removed v
  else Straightline.assign (List.zip carried w.loop.carried) (fun p => p.1.condArg) (fun p => .old p.2.operand) id v

/-- The condition on the operands, and with it what the result is replaced by. -/
def resultReplacement (condOps : List (Instr (Op α) (Name V))) (carried : List (Carried (Name V)))
    (test : Name V) (result inputValue : V) (bodyRes : Name V) : List (Instr (Op α) (Name V)) :=
  condOps.map (Instr.rename (.clone result) (mapper w condOps carried result)) ++
    [⟨.old result, .select, [mapper w condOps carried result test, bodyRes, .old inputValue]⟩]

/-- The select that takes the place of an argument, at the start of a region. -/
def replacement (counterArg : Name V) (start arg : Name V) (removed inputValue : V) (bodyRes : Name V) :
    List (Instr (Op α) (Name V)) :=
  [⟨.firstIter removed, .compare .EQ, [counterArg, start]⟩,
    ⟨arg, .select, [.firstIter removed, .old inputValue, bodyRes]⟩]

def step (ivInfo : Option (IVInfo V)) (s : Removal α (Name V)) (opOperand : Nat) :
    Option (Removal α (Name V)) := do
  let o ← w.loop.carried[opOperand]?
  let inputValue := o.operand
  let i := opOperand - s.deleted
  let c ← s.carried[i]?
  let bodyRes := c.yield
  match ivInfo, bodyRes with
  | some info, .old v =>
    if canHoist hoisting w inputValue ∧ w.definedOutside v ∧ info.step ≠ 0 then
      let iv ← s.carried[info.index]?
      return { s with
        before := s.before ++ resultReplacement w s.condOps s.carried s.test o.result inputValue bodyRes
        condOps := replacement iv.condArg (.old info.start) c.condArg o.result inputValue bodyRes ++ s.condOps
        bodyOps := replacement iv.bodyArg (.old info.start) c.bodyArg o.result inputValue bodyRes ++ s.bodyOps
        carried := s.carried.eraseIdx i
        deleted := s.deleted + 1 }
    else return { s with operands := s.operands ++ [opOperand] }
  | _, _ => return { s with operands := s.operands ++ [opOperand] }

def matchAndRewrite : Option (Program (Op α) (Name V)) :=
  ((List.range w.loop.carried.length).foldlM (step hoisting w w.extractSimpleIVInfo)
    ⟨[], w.loop.carried.map (Carried.map .old), w.loop.condOps.map (Instr.rename .old .old), .old w.loop.test,
      w.loop.bodyOps.map (Instr.rename .old .old), [], 0⟩).bind
    (Removal.finish (w.loop.carried.map (Carried.map .old)))

/-! ### The loop when some values have been looked at -/

def removes (info : IVInfo V) (c : Carried V) : Bool :=
  canHoist hoisting w c.operand && (w.definedOutside c.yield && decide (info.step ≠ 0))

/-- The replacements of the arguments in a region; the last is in front. -/
def replacements (info : IVInfo V) (counter : Carried V) (arg : Carried V → V) (rs : List (Carried V)) :
    List (Instr (Op α) (Name V)) :=
  rs.reverse.flatMap fun c =>
    replacement (.old (arg counter)) (.old info.start) (.old (arg c)) c.result c.operand (.old c.yield)

variable (info : IVInfo V) (counter : Carried V)

def condOpsAt (m : Nat) : List (Instr (Op α) (Name V)) :=
  replacements info counter Carried.condArg (removed w.loop.carried (removes hoisting w info) m) ++
    w.loop.condOps.map (Instr.rename .old .old)

def bodyOpsAt (m : Nat) : List (Instr (Op α) (Name V)) :=
  replacements info counter Carried.bodyArg (removed w.loop.carried (removes hoisting w info) m) ++
    w.loop.bodyOps.map (Instr.rename .old .old)

def carriedAt (m : Nat) : List (Carried (Name V)) :=
  (left w.loop.carried (removes hoisting w info) m).map (Carried.map .old)

def beforeAt : Nat → List (Instr (Op α) (Name V))
  | 0 => []
  | m + 1 => match w.loop.carried[m]? with
    | some c => if removes hoisting w info c then beforeAt m ++ resultReplacement w (condOpsAt hoisting w info counter m)
        (carriedAt hoisting w info m) (.old w.loop.test) c.result c.operand (.old c.yield) else beforeAt m
    | none => beforeAt m

/-- The loop when the first `m` values have been looked at, if the counter is found where it was. -/
def stateAt (m : Nat) : Removal α (Name V) :=
  ⟨beforeAt hoisting w info counter m, carriedAt hoisting w info m, condOpsAt hoisting w info counter m,
    .old w.loop.test, bodyOpsAt hoisting w info counter m, keptNumbers w.loop.carried (removes hoisting w info) m,
    (removed w.loop.carried (removes hoisting w info) m).length⟩

/-- If several values are removed, then the counter comes before them, and the condition uses no argument behind
the first of them. -/
def HoldsWhen : Prop :=
  ∀ p q (hp : p < w.loop.carried.length) (hq : q < w.loop.carried.length), p < q →
    removes hoisting w info w.loop.carried[p] = true → removes hoisting w info w.loop.carried[q] = true →
      info.index < p ∧ ∀ j (hj : j < w.loop.carried.length), p < j → ∀ i ∈ w.loop.condOps,
        w.loop.carried[j].condArg ∉ i.operands

variable {hoisting w info counter} {m : Nat}

theorem stateAt_zero : stateAt hoisting w info counter 0 = ⟨[], w.loop.carried.map (Carried.map .old),
    w.loop.condOps.map (Instr.rename .old .old), .old w.loop.test, w.loop.bodyOps.map (Instr.rename .old .old),
    [], 0⟩ := rfl

theorem removes_counter (hw : w.WellFormed) (hctr : w.IsCounter info counter) :
    removes hoisting w info counter = false := by
  have hinside : w.definedOutside counter.yield = false := by
    by_contra hout
    rw [Bool.not_eq_false] at hout
    have hstep := hctr.step
    rw [WhileOp.ivStep] at hstep
    split at hstep
    · rename_i type a b hdef
      have harg : counter.bodyArg ∈ [a, b] := by
        rcases or_eq_some_iff.mp hstep with h | ⟨-, h⟩
        · rw [ite_none_right_eq_some] at h
          exact h.1 ▸ mem_cons_self
        · rw [ite_none_right_eq_some] at h
          exact h.1 ▸ mem_cons_of_mem _ mem_cons_self
      rw [WhileOp.getDefiningOp, find?_eq_none.mpr fun i hi => by
        simpa using WhileOp.bodyOp_ne hout hi] at hdef
      exact WhileOp.bodyArg_ne ((hw.defs_outside _ _ _ hdef).2 _ harg) hctr.mem rfl
    · cases hstep
  rw [removes, hinside, Bool.false_and, Bool.and_false]

section

variable (hctr : w.IsCounter info counter) (hholds : HoldsWhen hoisting w info) (hm : m < w.loop.carried.length)

include hctr hholds hm

theorem getElem_counter (hremoves : removes hoisting w info w.loop.carried[m] = true) :
    (carriedAt hoisting w info m)[info.index]? = some (counter.map .old) := by
  obtain ⟨hindex, hget⟩ := List.getElem?_eq_some_iff.mp hctr.getElem_index
  have hkept : ∀ i (hi : i < w.loop.carried.length), i ≤ info.index → i < m →
      removes hoisting w info w.loop.carried[i] = false := by
    intro i hi hle him
    by_contra htrue
    rw [Bool.not_eq_false] at htrue
    exact absurd (hholds i m hi hm him htrue hremoves).1 (Nat.not_lt_of_le hle)
  rw [carriedAt, getElem?_map, (getElem_left_of_kept hindex hm.le hkept).1, hget]
  rfl

theorem step_stateAt :
    step hoisting w (some info) (stateAt hoisting w info counter m) m =
      some (stateAt hoisting w info counter (m + 1)) := by
  have hget : w.loop.carried[m]? = some w.loop.carried[m] := getElem?_eq_getElem hm
  have hleft : (stateAt hoisting w info counter m).carried[m - (stateAt hoisting w info counter m).deleted]? =
      some (w.loop.carried[m].map .old) := by
    change ((left w.loop.carried (removes hoisting w info) m).map _)[_]? = _
    rw [getElem?_map]
    exact congrArg (Option.map _) (getElem_left hm)
  simp only [step, hget, hleft, bind_eq_bind, bind_some, Carried.map]
  cases hremoves : removes hoisting w info w.loop.carried[m] with
  | true =>
    have hif := hremoves
    rw [removes, Bool.and_eq_true, Bool.and_eq_true, decide_eq_true_iff] at hif
    have hiv : (stateAt hoisting w info counter m).carried[info.index]? = some (counter.map .old) :=
      getElem_counter hctr hholds hm hremoves
    have hsucc : removed w.loop.carried (removes hoisting w info) (m + 1) =
        removed w.loop.carried (removes hoisting w info) m ++ [w.loop.carried[m]] := by
      rw [removed_succ hm, if_pos hremoves]
    have hreplacements : ∀ (arg : Carried V → V) (rs : List (Carried V)) (c : Carried V),
        replacements (α := α) info counter arg (rs ++ [c]) = replacement (.old (arg counter)) (.old info.start)
          (.old (arg c)) c.result c.operand (.old c.yield) ++ replacements info counter arg rs := by
      intro arg rs c
      rw [replacements, reverse_append, reverse_singleton, flatMap_append, flatMap_singleton]
      rfl
    rw [if_pos hif, hiv, bind_some]
    refine congrArg some ?_
    rw [stateAt, stateAt]
    congr 1
    · rw [beforeAt, hget]
      exact (if_pos hremoves).symm
    · rw [carriedAt, carriedAt, eraseIdx_map, eraseIdx_left hm hremoves]
    · rw [condOpsAt, condOpsAt, hsucc, hreplacements, append_assoc]
      rfl
    · rw [bodyOpsAt, bodyOpsAt, hsucc, hreplacements, append_assoc]
      rfl
    · rw [keptNumbers_succ hm, if_pos hremoves]
    · rw [hsucc, length_append, length_singleton]
  | false =>
    have hif := hremoves
    rw [removes, Bool.and_eq_false_iff, Bool.and_eq_false_iff, decide_eq_false_iff_not] at hif
    have hnot : ¬(canHoist hoisting w w.loop.carried[m].operand = true ∧
        w.definedOutside w.loop.carried[m].yield = true ∧ info.step ≠ 0) := by
      rintro ⟨hhoist, hout, hstep⟩
      rcases hif with hif | hif | hif
      · exact Bool.false_ne_true (hif.symm.trans hhoist)
      · exact Bool.false_ne_true (hif.symm.trans hout)
      · exact hif hstep
    have hsucc : removed w.loop.carried (removes hoisting w info) (m + 1) =
        removed w.loop.carried (removes hoisting w info) m := by
      rw [removed_succ hm, hremoves, if_neg Bool.false_ne_true]
    rw [if_neg hnot]
    refine congrArg some ?_
    rw [stateAt, stateAt]
    congr 1
    · rw [beforeAt, hget]
      exact (if_neg (by rw [hremoves]; exact Bool.false_ne_true)).symm
    · rw [carriedAt, carriedAt, left_succ_of_kept hm hremoves]
    · rw [condOpsAt, condOpsAt, hsucc]
    · rw [bodyOpsAt, bodyOpsAt, hsucc]
    · rw [keptNumbers_succ hm, hremoves, if_neg Bool.false_ne_true]
    · rw [hsucc]

end

/-! ### The regions -/

section

variable {env σ e : V → Val α} {k N : Nat} {c : Carried V}

theorem entering_removed (hw : w.WellFormed) (hσ : w.loop.entering (semantics α) env k = some σ)
    (hc : c ∈ w.loop.carried) (hremoves : removes hoisting w info c = true) :
    σ c.result = if k = 0 then env c.operand else env c.yield := by
  cases k with
  | zero =>
    cases hσ
    exact WhileOp.start_result hw hc
  | succ k =>
    rw [removes, Bool.and_eq_true, Bool.and_eq_true] at hremoves
    obtain ⟨σ₀, hσ₀, -, hnext⟩ := Loop.entering_succ_eq_some.mp hσ
    obtain ⟨e, he, -⟩ := map_eq_some_iff.mp hnext
    rw [WhileOp.next_result hw he hnext hc, WhileOp.bodyEnv_outside hσ₀ he hremoves.2.1, if_neg (Nat.succ_ne_zero k)]

theorem eval_select (b : Bool) (x y : Val α) : (Op.select).eval [ofPred b, x, y] = some (if b then x else y) := rfl

variable {e₀ env' τ : Name V → Val α} {region : List (Instr (Op α) V)} {d : V → Val α} {i : Instr (Op α) (Name V)}

theorem run_replacement {counterArg start arg bodyRes : Name V} {r inputValue : V} {x y : Val α}
    (hcompare : (Op.compare .EQ).eval [e₀ counterArg, e₀ start] = some (ofPred (k = 0)))
    (hinput : e₀ (.old inputValue) = x) (hres : e₀ bodyRes = y) (hne : bodyRes ≠ .firstIter r) :
    ∃ e', run (semantics α) (replacement counterArg start arg r inputValue bodyRes) e₀ = some e' ∧
      e' arg = (if k = 0 then x else y) ∧ ∀ v, v ≠ arg → v ≠ .firstIter r → e' v = e₀ v := by
  have hselect : (Op.select).eval ([Name.firstIter r, .old inputValue, bodyRes].map
      (update e₀ (.firstIter r) (ofPred (k = 0)))) = some (if k = 0 then x else y) := by
    have hold : Name.old inputValue ≠ Name.firstIter r := nofun
    rw [map_cons, map_cons, map_singleton, update_self, update_of_ne hold, update_of_ne hne, hinput, hres, eval_select]
    simp only [decide_eq_true_eq]
  refine ⟨_, run_cons_eq_some.mpr ⟨_, hcompare, run_cons_eq_some.mpr ⟨_, hselect, rfl⟩⟩, ?_, fun v hv hv' => ?_⟩
  · exact update_self ..
  · exact (update_of_ne hv ..).trans (update_of_ne hv' ..)

theorem run_replacements (arg : Carried V → V) (scope : V → Prop) {rs : List (Carried V)} (hw : w.WellFormed)
    (henv : w.Holds env) (hctr : w.IsCounter info counter) (hback : w.NeverBack info counter env N)
    (hk : k ≤ N) (hordered : Ordered region) (hnodup : (w.loop.carried.map arg).Nodup)
    (hargs : ∀ v, w.definedOutside v = true → ∀ c ∈ w.loop.carried, arg c ≠ v)
    (hops : ∀ i ∈ region, ∀ c ∈ w.loop.carried, i.result ≠ arg c)
    (houts : ∀ v, w.definedOutside v = true → ∀ i ∈ region, i.result ≠ v)
    (hrs : ∀ c ∈ rs, c ∈ w.loop.carried ∧ removes hoisting w info c = true)
    (hscope : ∀ i ∈ region, ∀ v ∈ i.operands, scope v) (hscope_out : ∀ v, w.definedOutside v = true → scope v)
    (hscope_counter : scope (arg counter)) (hσ : w.loop.entering (semantics α) env k = some σ)
    (hd : w.loop.condEnv (semantics α) σ = some d)
    (he : run (semantics α) region (Straightline.assign w.loop.carried arg (fun c => σ c.result) σ) = some e)
    (he₀ : ∀ v, scope v → (∀ c ∈ rs, arg c ≠ v) → (∀ i ∈ region, i.result ≠ v) →
      e₀ (.old v) = Straightline.assign w.loop.carried arg (fun c => σ c.result) σ v) :
    ∃ e', run (semantics α) (replacements info counter arg rs ++ region.map (Instr.rename .old .old)) e₀ = some e' ∧
      ∀ v, scope v → e' (.old v) = e v := by
  have hcounter_ne : ∀ c ∈ rs, arg c ≠ arg counter := by
    intro c hc heq
    have hsame := inj_on_of_nodup_map hnodup (hrs c hc).1 hctr.mem heq
    have hr := (hrs c hc).2
    rw [hsame, removes_counter hw hctr] at hr
    cases hr
  have hstart : w.definedOutside info.start = true := hctr.start_eq ▸ hw.operand_outside _ hctr.mem
  have houtside : ∀ v, w.definedOutside v = true →
      Straightline.assign w.loop.carried arg (fun c => σ c.result) σ v = env v := by
    intro v hv
    rw [assign_of_ne (hargs v hv), WhileOp.entering_outside hσ hv]
  obtain ⟨e₁, he₁, hagree⟩ : ∃ e₁, run (semantics α) (replacements info counter arg rs) e₀ = some e₁ ∧
      ∀ v, scope v → (∀ c ∈ ([] : List (Carried V)), arg c ≠ v) → (∀ i ∈ region, i.result ≠ v) →
        e₁ (.old v) = Straightline.assign w.loop.carried arg (fun c => σ c.result) σ v := by
    refine run_flatMap (I := fun (rest : List (Carried V)) (e : Name V → Val α) => ∀ v, scope v →
      (∀ c ∈ rest, arg c ≠ v) → (∀ i ∈ region, i.result ≠ v) →
        e (.old v) = Straightline.assign w.loop.carried arg (fun c => σ c.result) σ v) (fun c rest hsuffix e hI => ?_)
      fun v hv hne => he₀ v hv fun c hc => hne c (mem_reverse.mpr hc)
    have hmem : ∀ c' ∈ c :: rest, c' ∈ rs := fun c' hc' => mem_reverse.mp (hsuffix.subset hc')
    obtain ⟨hc, hremoves⟩ := hrs c (hmem c mem_cons_self)
    have hval : ∀ v, w.definedOutside v = true → e (.old v) = env v := fun v hv =>
      (hI v (hscope_out v hv) (fun c' hc' => hargs v hv c' (hrs c' (hmem c' hc')).1) (houts v hv)).trans
        (houtside v hv)
    have hcompare : (Op.compare .EQ).eval [e (.old (arg counter)), e (.old info.start)] = some (ofPred (k = 0)) := by
      rw [hval _ hstart, hI _ hscope_counter (fun c' hc' => hcounter_ne c' (hmem c' hc'))
        (fun i hi => hops i hi counter hctr.mem), assign_of_mem hnodup hctr.mem]
      exact hctr.eval_firstIter hw henv hback hk hσ hd
    have hyield : w.definedOutside c.yield = true := by
      rw [removes, Bool.and_eq_true, Bool.and_eq_true] at hremoves
      exact hremoves.2.1
    obtain ⟨e', he', harg, hother⟩ := run_replacement hcompare (hval _ (hw.operand_outside c hc))
      (hval _ hyield) nofun
    refine ⟨e', he', fun v hv hne hregion => ?_⟩
    by_cases hv' : arg c = v
    · rw [← hv', harg, assign_of_mem hnodup hc, entering_removed hw hσ hc hremoves]
    · rw [hother _ (fun heq => hv' (Name.old.inj heq).symm) nofun]
      refine hI v hv (fun c' hc' => ?_) hregion
      rcases mem_cons.mp hc' with rfl | hc'
      · exact hv'
      · exact hne c' hc'
  obtain ⟨e₂, he₂, hagree₂⟩ := run_congr hordered hscope
    (fun v hv hne => hagree v hv (fun c hc => absurd hc not_mem_nil) hne) he
  obtain ⟨e', he', hagree'⟩ : ∃ e', run (semantics α) (region.map (Instr.rename Name.old Name.old)) e₁ = some e' ∧
      ∀ v, True → e' (.old v) = e₂ v := run_rename (fun _ _ _ _ => trivial)
    (fun i _ v _ => ⟨Name.old.inj, congrArg Name.old⟩) (fun v _ => rfl) he₂
  refine ⟨e', ?_, fun v hv => (hagree' v trivial).trans (hagree₂ v hv)⟩
  rw [run_append, he₁, bind_some, he']

/-! ### The results -/

theorem mem_condOpsAt (hi : i ∈ condOpsAt hoisting w info counter m) :
    (∃ c ∈ removed w.loop.carried (removes hoisting w info) m,
      i ∈ replacement (α := α) (.old counter.condArg) (.old info.start) (.old c.condArg) c.result c.operand (.old c.yield)) ∨
    ∃ j ∈ w.loop.condOps, i = j.rename .old .old := by
  rcases mem_append.mp hi with hi | hi
  · obtain ⟨c, hc, hi⟩ := mem_flatMap.mp hi
    exact .inl ⟨c, mem_reverse.mp hc, hi⟩
  · obtain ⟨j, hj, rfl⟩ := mem_map.mp hi
    exact .inr ⟨j, hj, rfl⟩

theorem condOpsAt_operands (hi : i ∈ condOpsAt hoisting w info counter m) {x : Name V} (hx : x ∈ i.operands)
    (r : V) (y : Name V) : x ≠ .clone r y := by
  rintro rfl
  rcases mem_condOpsAt hi with ⟨c, -, hi⟩ | ⟨j, -, rfl⟩
  · simp only [replacement, mem_cons, not_mem_nil, or_false] at hi
    rcases hi with rfl | rfl
    · simp at hx
    · simp at hx
  · obtain ⟨v, -, hv⟩ := mem_map.mp hx
    cases hv

theorem mapper_old {v r : V} (hremoved : ∀ c ∈ removed w.loop.carried (removes hoisting w info) m, c.condArg ≠ v)
    (hops : ∀ i ∈ w.loop.condOps, i.result ≠ v) : mapper w (condOpsAt (α := α) hoisting w info counter m)
      (carriedAt hoisting w info m) r (.old v) =
    Straightline.assign (zip (carriedAt hoisting w info m) w.loop.carried) (fun p => p.1.condArg)
      (fun p => .old p.2.operand) id (.old v) := by
  refine if_neg fun hmem => ?_
  obtain ⟨i, hi, hv⟩ := mem_map.mp hmem
  rcases mem_condOpsAt hi with ⟨c, hc, hi⟩ | ⟨j, hj, rfl⟩
  · simp only [replacement, mem_cons, not_mem_nil, or_false] at hi
    rcases hi with rfl | rfl
    · cases hv
    · exact hremoved c hc (Name.old.inj hv)
  · exact hops j hj (Name.old.inj hv)

theorem nodup_zip (hw : w.WellFormed) : ((zip (carriedAt hoisting w info m) w.loop.carried).map fun p =>
    p.1.condArg).Nodup := by
  have hlen : (carriedAt hoisting w info m).length ≤ w.loop.carried.length := by
    rw [carriedAt, length_map]
    exact sublist_left.length_le
  have hmap : (zip (carriedAt hoisting w info m) w.loop.carried).map (fun p => p.1.condArg) =
      ((left w.loop.carried (removes hoisting w info) m).map Carried.condArg).map Name.old := by
    change (zip _ _).map (Carried.condArg ∘ Prod.fst) = _
    rw [← List.map_map, map_fst_zip hlen, carriedAt, List.map_map, List.map_map]
    rfl
  rw [hmap]
  exact (hw.nodup_condArg.sublist (sublist_left.map _)).map fun _ _ => Name.old.inj

theorem run_resultReplacement {b : Bool} {base : Name V → Val α} (hw : w.WellFormed) (henv : w.Holds env)
    (hctr : w.IsCounter info counter) (hholds : HoldsWhen hoisting w info) (hm : m < w.loop.carried.length)
    (hremoves : removes hoisting w info w.loop.carried[m] = true)
    (hfirst : w.loop.continues (semantics α) (w.loop.start env) = some b)
    (hbase : ∀ v, w.definedOutside v = true → base (.old v) = env v) :
    ∃ base', run (semantics α) (resultReplacement w (condOpsAt hoisting w info counter m) (carriedAt hoisting w info m)
        (.old w.loop.test) w.loop.carried[m].result w.loop.carried[m].operand (.old w.loop.carried[m].yield)) base =
          some base' ∧
      base' (.old w.loop.carried[m].result) =
        (if b then env w.loop.carried[m].yield else env w.loop.carried[m].operand) ∧
      ∀ v, v ≠ w.loop.carried[m].result → base' (.old v) = base (.old v) := by
  set c := w.loop.carried[m] with hc
  have hcmem : c ∈ w.loop.carried := getElem_mem hm
  set use := mapper w (condOpsAt (α := α) hoisting w info counter m) (carriedAt hoisting w info m) c.result with huse
  obtain ⟨d, hd, htest⟩ := bind_eq_some_iff.mp hfirst
  -- the arguments that have kept their numbers
  let scope : V → Prop := fun v => w.CondScope v ∧ ∀ p (hp : p < w.loop.carried.length), p < m →
    removes hoisting w info w.loop.carried[p] = true → ∀ j (hj : j < w.loop.carried.length), p < j →
      w.loop.carried[j].condArg ≠ v
  have hrs : ∀ c ∈ removed w.loop.carried (removes hoisting w info) m,
      c ∈ w.loop.carried ∧ removes hoisting w info c = true := fun c hc =>
    ⟨mem_of_removed hc, (mem_filter.mp hc).2⟩
  obtain ⟨e₁, he₁, hagree⟩ : ∃ e₁, run (semantics α) (condOpsAt hoisting w info counter m) (fun x => base (use x)) =
      some e₁ ∧ ∀ v, scope v → e₁ (.old v) = d v := by
    refine run_replacements (k := 0) (N := 0) (σ := w.loop.start env) Carried.condArg scope hw henv hctr
      (fun k σ hpos hk => absurd hpos (Nat.not_lt_of_le hk)) le_rfl hw.cond_ordered hw.nodup_condArg
      (fun v hv c hc => WhileOp.condArg_ne hv hc) (fun i hi c hc => hw.condOp_ne_condArg hi hc)
      (fun v hv i hi => WhileOp.condOp_ne hv hi) hrs (fun i hi v hv => ⟨hw.cond_scope i hi v hv, ?_⟩)
      (fun v hv => ⟨.inl hv, fun _ _ _ _ j hj _ => WhileOp.condArg_ne hv (getElem_mem hj)⟩)
      ⟨.inr (.inl ⟨counter, hctr.mem, rfl⟩), ?_⟩ rfl hd hd (fun v hv hne hops => ?_)
    · intro p hp hpm hr j hj hpj heq
      exact (hholds p m hp hm hpm hr hremoves).2 j hj hpj i hi (heq ▸ hv)
    · intro p hp hpm hr j hj hpj heq
      obtain ⟨hindex, hget⟩ := List.getElem?_eq_some_iff.mp hctr.getElem_index
      have hsame := index_eq hw.nodup_condArg hj hindex (heq.trans (congrArg Carried.condArg hget.symm))
      exact absurd (hholds p m hp hm hpm hr hremoves).1 (by omega)
    · rw [huse, mapper_old hne hops]
      rcases hv.1 with hout | ⟨c', hc', rfl⟩ | ⟨i, hi, rfl⟩
      · rw [assign_of_ne, id, hbase v hout, assign_of_ne fun c' hc' => WhileOp.condArg_ne hout hc',
          WhileOp.entering_outside (k := 0) rfl hout]
        intro q hq heq
        obtain ⟨c', hc', hfst⟩ := mem_map.mp (of_mem_zip hq).1
        rw [← hfst] at heq
        exact WhileOp.condArg_ne hout (sublist_left.subset hc') (Name.old.inj heq)
      · obtain ⟨j, hj, rfl⟩ := getElem_of_mem hc'
        have hkept : ∀ i (hi : i < w.loop.carried.length), i ≤ j → i < m →
            removes hoisting w info w.loop.carried[i] = false := by
          intro i hi hij him
          by_contra htrue
          rw [Bool.not_eq_false] at htrue
          rcases lt_or_eq_of_le hij with hij | rfl
          · exact hv.2 i hi him htrue j hj hij rfl
          · refine hne _ (mem_filter.mpr ⟨?_, htrue⟩) rfl
            exact mem_take_iff_getElem.mpr ⟨i, by omega, rfl⟩
        have hzip : (w.loop.carried[j].map Name.old, w.loop.carried[j]) ∈
            zip (carriedAt hoisting w info m) w.loop.carried := by
          refine mem_of_getElem? (i := j) (getElem?_zip_eq_some.mpr ⟨?_, getElem?_eq_getElem hj⟩)
          rw [carriedAt, getElem?_map, (getElem_left_of_kept hj hm.le hkept).1]
          rfl
        have hmapped : Straightline.assign (zip (carriedAt hoisting w info m) w.loop.carried) (fun p => p.1.condArg)
            (fun p => Name.old p.2.operand) id (w.loop.carried[j].map Name.old).condArg =
              .old w.loop.carried[j].operand := assign_of_mem (nodup_zip hw) hzip
        have hout := hw.operand_outside _ hc'
        rw [show (Name.old w.loop.carried[j].condArg) = (w.loop.carried[j].map Name.old).condArg from rfl, hmapped,
          hbase _ hout, assign_of_mem hw.nodup_condArg hc', WhileOp.start_result hw hc']
      · exact absurd rfl (hops i hi)
  obtain ⟨e₂, he₂, hcopies⟩ : ∃ e₂, run (semantics α) ((condOpsAt hoisting w info counter m).map
      (Instr.rename (.clone c.result) use)) base = some e₂ ∧ ∀ x, (∀ r y, x ≠ Name.clone r y) → e₂ (use x) = e₁ x := by
    refine run_rename (fun i hi x hx r y => condOpsAt_operands hi hx r y) (fun i hi x hx => ?_) (fun x _ => rfl) he₁
    by_cases hmem : x ∈ (condOpsAt hoisting w info counter m).map Instr.result
    · rw [huse, mapper, if_pos hmem]
      exact ⟨fun heq => (Name.clone.inj heq).2, congrArg _⟩
    · have hne : x ≠ i.result := fun heq => hmem (heq ▸ mem_map_of_mem hi)
      refine iff_of_false (fun heq => ?_) hne
      rw [huse, mapper, if_neg hmem] at heq
      by_cases harg : ∃ q ∈ zip (carriedAt hoisting w info m) w.loop.carried, q.1.condArg = x
      · obtain ⟨q, hq, rfl⟩ := harg
        rw [assign_of_mem (nodup_zip hw) hq] at heq
        cases heq
      · rw [assign_of_ne fun q hq hqx => harg ⟨q, hq, hqx⟩] at heq
        exact hx _ _ heq
  have hold : ∀ v, e₂ (.old v) = base (.old v) := fun v => run_frame he₂ fun i hi => by
    obtain ⟨j, -, rfl⟩ := mem_map.mp hi
    rintro ⟨⟩
  have htestCopy : e₂ (use (.old w.loop.test)) = ofPred b := by
    obtain ⟨x, y, -, -, direction, hdef, hval⟩ := hctr.operands_eq hw henv (k := 0) rfl hd
    have hnotArg : ∀ c' ∈ w.loop.carried, c'.condArg ≠ w.loop.test := by
      intro c' hc' heq
      rw [← heq, WhileOp.getDefiningOp, find?_eq_none.mpr fun i hi => by
        simpa using hw.condOp_ne_condArg hi hc'] at hdef
      exact WhileOp.condArg_ne (hw.defs_outside _ _ _ hdef).1 hc' rfl
    rw [hcopies (.old w.loop.test) (by rintro _ _ ⟨⟩),
      hagree _ ⟨hw.test_scope, fun _ _ _ _ j hj _ => hnotArg _ (getElem_mem hj)⟩, hval]
    change toPred (d w.loop.test) = some b at htest
    rw [hval, toPred_ofPred] at htest
    rw [some.inj htest]
  have hyield : w.definedOutside c.yield = true := by
    rw [removes, Bool.and_eq_true, Bool.and_eq_true] at hremoves
    exact hremoves.2.1
  have hselect : (Op.select).eval ([use (.old w.loop.test), .old c.yield, .old c.operand].map e₂) =
      some (if b then env c.yield else env c.operand) := by
    rw [map_cons, map_cons, map_singleton, htestCopy, hold, hold, hbase _ hyield,
      hbase _ (hw.operand_outside c hcmem), eval_select]
  refine ⟨update e₂ (.old c.result) (if b then env c.yield else env c.operand), ?_, ?_, fun v hv => ?_⟩
  · rw [resultReplacement, run_append, he₂, bind_some]
    exact run_cons_eq_some.mpr ⟨_, hselect, rfl⟩
  · exact update_self ..
  · rw [update_of_ne fun heq => hv (Name.old.inj heq), hold]

theorem run_beforeAt {b : Bool} (hw : w.WellFormed) (henv : w.Holds env) (hctr : w.IsCounter info counter)
    (hholds : HoldsWhen hoisting w info) (hm : m ≤ w.loop.carried.length)
    (hfirst : w.loop.continues (semantics α) (w.loop.start env) = some b) (henv' : ∀ v, env' (.old v) = env v) :
    ∃ base, run (semantics α) (beforeAt hoisting w info counter m) env' = some base ∧
      (∀ c ∈ removed w.loop.carried (removes hoisting w info) m,
        base (.old c.result) = if b then env c.yield else env c.operand) ∧
      ∀ v, (∀ c ∈ removed w.loop.carried (removes hoisting w info) m, c.result ≠ v) → base (.old v) = env v := by
  induction m with
  | zero => exact ⟨env', rfl, fun c hc => absurd hc not_mem_nil, fun v _ => henv' v⟩
  | succ m ih =>
    have hm : m < w.loop.carried.length := hm
    obtain ⟨base, hrun, hresults, hold⟩ := ih hm.le
    rw [beforeAt, getElem?_eq_getElem hm]
    cases hremoves : removes hoisting w info w.loop.carried[m] with
    | false =>
      rw [removed_succ hm, hremoves, if_neg Bool.false_ne_true]
      simp only [hremoves, Bool.false_eq_true, if_false]
      exact ⟨base, hrun, hresults, hold⟩
    | true =>
      rw [removed_succ hm, if_pos hremoves]
      simp only [hremoves, if_true]
      have hout : ∀ v, w.definedOutside v = true → base (.old v) = env v := fun v hv =>
        hold v fun c hc => WhileOp.result_ne hv (mem_of_removed hc)
      obtain ⟨base', hrun', hres, hother⟩ := run_resultReplacement hw henv hctr hholds hm hremoves hfirst hout
      refine ⟨base', by rw [run_append, hrun, bind_some, hrun'], fun c hc => ?_, fun v hv => ?_⟩
      · rcases mem_append.mp hc with hc | hc
        · rw [hother _ (ne_of_removed hw.nodup_result hm hc), hresults c hc]
        · rw [mem_singleton.mp hc, hres]
      · rw [hother v fun heq => hv _ (mem_append_right _ (mem_singleton_self _)) heq.symm,
          hold v fun c hc => hv c (mem_append_left _ hc)]

/-! ### The whole loop -/

variable {p : Program (Op α) (Name V)}

theorem assign_old {q : Carried V → Bool} {dst : Carried V → V} {dst' : Carried (Name V) → Name V}
    {val : Carried V → Val α} {val' : Carried (Name V) → Val α} {v : V}
    (hdst : ∀ c : Carried V, dst' (c.map .old) = .old (dst c)) (hnodup : (w.loop.carried.map dst).Nodup)
    (hv : ∀ c ∈ w.loop.carried.filter q, dst c ≠ v) (hτ : τ (.old v) = σ v)
    (hval : ∀ c ∈ w.loop.carried, q c = false → val' (c.map .old) = val c) :
    Straightline.assign ((w.loop.carried.filter fun c => !q c).map (Carried.map .old)) dst' val' τ (.old v) =
      Straightline.assign w.loop.carried dst val σ v := by
  have hcomp : dst' ∘ Carried.map Name.old = Name.old ∘ dst := funext hdst
  have hinj : Function.Injective (Name.old : V → Name V) := fun _ _ => Name.old.inj
  rw [Straightline.assign_map, hcomp, assign_comp hinj]
  exact assign_kept hnodup hv hτ hval

theorem run_region (arg : Carried V → V) (arg' : Carried (Name V) → Name V) (hw : w.WellFormed)
    (henv : w.Holds env) (hctr : w.IsCounter info counter) (hback : w.NeverBack info counter env N)
    (hk : k ≤ N) (hordered : Ordered region) (harg : ∀ c : Carried V, arg' (c.map .old) = .old (arg c))
    (hnodup : (w.loop.carried.map arg).Nodup)
    (hargs : ∀ v, w.definedOutside v = true → ∀ c ∈ w.loop.carried, arg c ≠ v)
    (hops : ∀ i ∈ region, ∀ c ∈ w.loop.carried, i.result ≠ arg c)
    (houts : ∀ v, w.definedOutside v = true → ∀ i ∈ region, i.result ≠ v)
    (hscope : ∀ i ∈ region, ∀ v ∈ i.operands, ∀ c ∈ w.loop.carried, c.result ≠ v)
    (hscope_arg : ∀ c' ∈ w.loop.carried, ∀ c ∈ w.loop.carried, c.result ≠ arg c')
    (hσ : w.loop.entering (semantics α) env k = some σ) (hd : w.loop.condEnv (semantics α) σ = some d)
    (hτ : ∀ v, (∀ c ∈ w.loop.carried.filter (removes hoisting w info), c.result ≠ v) →
      τ (.old v) = σ v)
    (he : run (semantics α) region (Straightline.assign w.loop.carried arg (fun c => σ c.result) σ) = some e) :
    ∃ e', run (semantics α) (replacements info counter arg (w.loop.carried.filter (removes hoisting w info)) ++
        region.map (Instr.rename .old .old))
        (Straightline.assign ((w.loop.carried.filter fun c => !removes hoisting w info c).map (Carried.map .old)) arg'
          (fun c => τ c.result) τ) = some e' ∧
      ∀ v, (∀ c ∈ w.loop.carried, c.result ≠ v) → e' (.old v) = e v := by
  have hkept : ∀ v, (∀ c ∈ w.loop.carried, c.result ≠ v) → τ (.old v) = σ v := fun v hv =>
    hτ v fun c hc => hv c (mem_filter.mp hc).1
  refine run_replacements arg (fun v => ∀ c ∈ w.loop.carried, c.result ≠ v) hw henv hctr hback hk
    hordered hnodup hargs hops houts (fun c hc => mem_filter.mp hc) hscope
    (fun v hv c hc => WhileOp.result_ne hv hc) (hscope_arg counter hctr.mem) hσ hd he fun v hv hne _ =>
      assign_old harg hnodup hne (hkept v hv) fun c hc hfalse => hτ _ fun c' hc' heq => ?_
  obtain ⟨hc', htrue⟩ := mem_filter.mp hc'
  rw [inj_on_of_nodup_map hw.nodup_result hc' hc heq, hfalse] at htrue
  cases htrue

theorem matchAndRewrite_eq (hinfo : w.extractSimpleIVInfo = some info) (hctr : w.IsCounter info counter)
    (hholds : HoldsWhen hoisting w info) (h : matchAndRewrite hoisting w = some p) :
    p = ⟨beforeAt hoisting w info counter w.loop.carried.length,
      ⟨(w.loop.carried.filter fun c => !removes hoisting w info c).map (Carried.map .old),
        replacements info counter Carried.condArg (w.loop.carried.filter (removes hoisting w info)) ++
          w.loop.condOps.map (Instr.rename .old .old), .old w.loop.test,
        replacements info counter Carried.bodyArg (w.loop.carried.filter (removes hoisting w info)) ++
          w.loop.bodyOps.map (Instr.rename .old .old)⟩, []⟩ := by
  have hstep : ∀ m < w.loop.carried.length, step hoisting w (some info) (stateAt hoisting w info counter m) m =
      some (stateAt hoisting w info counter (m + 1)) := fun m hm => step_stateAt hctr hholds hm
  have hfold := foldlM_range hstep
  rw [stateAt_zero] at hfold
  rw [matchAndRewrite, hinfo, hfold, bind_some, Removal.finish] at h
  split at h
  · cases h
  · cases h
    have hrs : removed w.loop.carried (removes hoisting w info) w.loop.carried.length =
        w.loop.carried.filter (removes hoisting w info) := by rw [removed, take_length]
    have hcarried := finish_carried w.loop.carried (removes hoisting w info) (Carried.map Name.old) Name.old
      (fun _ => rfl) (fun _ => rfl)
    simp only [stateAt, carriedAt, condOpsAt, bodyOpsAt, hrs, hcarried]

theorem step_none {s : Removal α (Name V)} {o : Carried V} {c : Carried (Name V)} (ho : w.loop.carried[m]? = some o)
    (hc : s.carried[m - s.deleted]? = some c) :
    step hoisting w none s m = some { s with operands := s.operands ++ [m] } := by
  simp only [step, ho, hc, bind_eq_bind, bind_some]
  rfl

theorem exists_info (h : matchAndRewrite hoisting w = some p) : ∃ info, w.extractSimpleIVInfo = some info := by
  cases hinfo : w.extractSimpleIVInfo with
  | some info => exact ⟨info, rfl⟩
  | none =>
    let state : Nat → Removal α (Name V) := fun m => ⟨[], w.loop.carried.map (Carried.map .old),
      w.loop.condOps.map (Instr.rename .old .old), .old w.loop.test, w.loop.bodyOps.map (Instr.rename .old .old),
      range m, 0⟩
    have hstep : ∀ m < w.loop.carried.length, step hoisting w none (state m) m = some (state (m + 1)) := by
      intro m hm
      have hc : (state m).carried[m - (state m).deleted]? = some (w.loop.carried[m].map .old) := by
        rw [getElem?_map, Nat.sub_zero, getElem?_eq_getElem hm]
        rfl
      rw [step_none (getElem?_eq_getElem hm) hc]
      simp only [state, range_succ]
    have hfold := foldlM_range hstep
    rw [matchAndRewrite, hinfo] at h
    change Option.bind (List.foldlM _ (state 0) _) _ = _ at h
    rw [hfold, bind_some, Removal.finish, if_pos] at h
    · cases h
    · rw [length_map]
      exact length_range

theorem exists_first (hw : w.WellFormed) (henv : w.Holds env) (hctr : w.IsCounter info counter)
    (hσ : w.loop.entering (semantics α) env k = some σ) (he : w.loop.condEnv (semantics α) σ = some e) :
    ∃ b, w.loop.continues (semantics α) (w.loop.start env) = some b ∧ (0 < k → b = true) := by
  rcases eq_zero_or_pos k with rfl | hpos
  · cases hσ
    obtain ⟨x, y, -, -, direction, -, hval⟩ := hctr.operands_eq hw henv (k := 0) rfl he
    refine ⟨direction.holds x y, ?_, fun h => absurd h (lt_irrefl 0)⟩
    rw [Loop.continues, he, bind_some, hval]
    rfl
  · obtain ⟨σ₀, -, hσ₀, htrue, -⟩ := Loop.exists_executed hσ hpos
    cases hσ₀
    exact ⟨true, htrue, fun _ => rfl⟩

theorem preservesTo_matchAndRewrite (hw : w.WellFormed) (henv : w.Holds env)
    (hinfo : w.extractSimpleIVInfo = some info) (hctr : w.IsCounter info counter) (hholds : HoldsWhen hoisting w info)
    (h : matchAndRewrite hoisting w = some p) (hback : w.NeverBack info counter env N)
    (henv' : ∀ v, env' (.old v) = env v) : PreservesTo (semantics α) w.loop p ⟨.old, .old, .old⟩ env env' N := by
  by_cases hfirst : ∃ b, w.loop.continues (semantics α) (w.loop.start env) = some b
  swap
  · -- the condition fails on entering the loop
    have hnever : ∀ k σ e, w.loop.entering (semantics α) env k = some σ → w.loop.condEnv (semantics α) σ ≠ some e :=
      fun k σ e hσ he => hfirst ((exists_first hw henv hctr hσ he).imp fun _ hb => hb.1)
    refine ⟨fun k _ σ e hσ he => absurd he (hnever k σ e hσ), fun k _ σ _ hσ htrue _ => ?_, fun n _ σ hσ => ?_⟩
    · obtain ⟨e, he, -⟩ := bind_eq_some_iff.mp htrue
      exact absurd he (hnever k σ e hσ)
    · obtain ⟨hσ, hfalse⟩ := Loop.exits_eq_some.mp hσ
      obtain ⟨e, he, -⟩ := bind_eq_some_iff.mp hfalse
      exact absurd he (hnever n σ e hσ)
  obtain ⟨b, hb⟩ := hfirst
  obtain rfl := matchAndRewrite_eq hinfo hctr hholds h
  obtain ⟨base, hbefore, hresults, hold⟩ := run_beforeAt hw henv hctr hholds le_rfl hb henv'
  have hrs : removed w.loop.carried (removes hoisting w info) w.loop.carried.length =
      w.loop.carried.filter (removes hoisting w info) := by rw [removed, take_length]
  rw [hrs] at hresults hold
  have hnodup := hw.nodup_result
  have hremoved_ne : ∀ c ∈ w.loop.carried.filter (removes hoisting w info),
      ∀ c' ∈ (w.loop.carried.filter fun c => !removes hoisting w info c).map (Carried.map Name.old),
        c'.result ≠ .old c.result := by
    intro c hc c' hc' heq
    obtain ⟨c'', hc'', rfl⟩ := mem_map.mp hc'
    obtain ⟨hc, htrue⟩ := mem_filter.mp hc
    obtain ⟨hc'', hfalse⟩ := mem_filter.mp hc''
    rw [inj_on_of_nodup_map hnodup hc'' hc (Name.old.inj heq), htrue] at hfalse
    cases hfalse
  refine preservesTo_of_simulates (R := fun _ σ τ =>
    (∀ v, (∀ c ∈ w.loop.carried.filter (removes hoisting w info), c.result ≠ v) → τ (.old v) = σ v) ∧
    ∀ c ∈ w.loop.carried.filter (removes hoisting w info),
      τ (.old c.result) = if b then env c.yield else env c.operand) hbefore ⟨?_, ?_⟩ ?_ ?_ ?_
  · intro v hv
    exact assign_old (fun _ => rfl) hnodup hv (hold v hv) fun c hc _ =>
      hold _ fun c' hc' => WhileOp.result_ne (hw.operand_outside c hc) (mem_filter.mp hc').1
  · intro c hc
    exact (assign_of_ne (hremoved_ne c hc)).trans (hresults c hc)
  · rintro k hk σ τ e hσ ⟨hτ, -⟩ he
    obtain ⟨e', he', hagree⟩ :=
      run_region Carried.condArg Carried.condArg hw henv hctr hback hk hw.cond_ordered (fun _ => rfl)
      hw.nodup_condArg (fun v hv c hc => WhileOp.condArg_ne hv hc) (fun i hi c hc => hw.condOp_ne_condArg hi hc)
      (fun v hv i hi => WhileOp.condOp_ne hv hi)
      (fun i hi v hv c hc => hw.result_ne_of_condScope (hw.cond_scope i hi v hv) hc)
      (fun c' hc' c hc => hw.result_ne_of_condScope (.inr (.inl ⟨c', hc', rfl⟩)) hc) hσ he hτ he
    exact ⟨e', he', hagree _ fun c hc => hw.result_ne_of_condScope hw.test_scope hc, hagree⟩
  · rintro k hk σ τ e hσ ⟨hτ, hτr⟩ htrue he
    obtain ⟨d, hd, -⟩ := bind_eq_some_iff.mp htrue
    obtain ⟨e', he', hagree⟩ :=
      run_region Carried.bodyArg Carried.bodyArg hw henv hctr hback hk hw.body_ordered (fun _ => rfl)
      hw.nodup_bodyArg (fun v hv c hc => WhileOp.bodyArg_ne hv hc) (fun i hi c hc => hw.bodyOp_ne_bodyArg hi hc)
      (fun v hv i hi => WhileOp.bodyOp_ne hv hi)
      (fun i hi v hv c hc => hw.result_ne_of_bodyScope (hw.body_scope i hi v hv) hc)
      (fun c' hc' c hc => hw.result_ne_of_bodyScope (.inr (.inl ⟨c', hc', rfl⟩)) hc) hσ hd hτ he
    refine ⟨e', he', hagree, fun _ => ⟨fun v hv => ?_, fun c hc => ?_⟩⟩
    · exact assign_old (fun _ => rfl) hnodup hv (hτ v hv) fun c hc _ =>
        hagree _ fun c' hc' => hw.result_ne_of_bodyScope (hw.yield_scope c hc) hc'
    · exact (assign_of_ne (hremoved_ne c hc)).trans (hτr c hc)
  · rintro n _ σ τ hσ ⟨hτ, hτr⟩
    obtain ⟨hend, hfalse⟩ := Loop.exits_eq_some.mp hσ
    obtain ⟨d, hd, -⟩ := bind_eq_some_iff.mp hfalse
    refine ⟨τ, rfl, fun v => ?_⟩
    by_cases hmem : ∃ c ∈ w.loop.carried.filter (removes hoisting w info), c.result = v
    · obtain ⟨c, hc, rfl⟩ := hmem
      obtain ⟨hmem, hremoves⟩ := mem_filter.mp hc
      rw [hτr c hc, entering_removed hw hend hmem hremoves]
      obtain ⟨b', hb', hpos⟩ := exists_first hw henv hctr hend hd
      rw [hb] at hb'
      cases hb'
      rcases eq_zero_or_pos n with rfl | hn
      · cases hend
        rw [hb] at hfalse
        rw [some.inj hfalse, if_neg Bool.false_ne_true, if_pos rfl]
      · rw [hpos hn, if_pos rfl, if_neg hn.ne']
    · exact hτ v fun c hc heq => hmem ⟨c, hc, heq⟩

end

end WhileLICM

/-- Carried values yielded as they are are removed, and so are those that get a value from outside, if at most one
of them is removed, or if they come behind the counter and the condition uses nothing behind the first of them. -/
theorem preservesTo_of_removed (hoisting : Hoisting V) (w : WhileOp α V) (hw : w.WellFormed) :
    (∀ p, WhileSimplify.matchAndRewrite hoisting w = some p → ∀ env N,
      PreservesTo (semantics α) w.loop p (WhileSimplify.uses hoisting w) env env N) ∧
    ∀ p, WhileLICM.matchAndRewrite hoisting w = some p →
      (∀ info, w.extractSimpleIVInfo = some info → WhileLICM.HoldsWhen hoisting w info) →
      ∀ (env : V → Val α) (env' : Name V → Val α), w.Holds env → (∀ v, env' (.old v) = env v) →
        (∀ N, (∀ info counter, w.extractSimpleIVInfo = some info → w.IsCounter info counter →
          w.NeverBack info counter env N) → PreservesTo (semantics α) w.loop p ⟨.old, .old, .old⟩ env env' N) ∧
        ∀ n σ, w.loop.exits (semantics α) env n = some σ →
          PreservesTo (semantics α) w.loop p ⟨.old, .old, .old⟩ env env' n := by
  refine ⟨fun p hp env N => WhileSimplify.preservesTo_matchAndRewrite hw hp env N,
    fun p hp hholds env env' henv henv' => ?_⟩
  obtain ⟨info, hinfo⟩ := WhileLICM.exists_info hp
  obtain ⟨counter, hcounter⟩ := WhileOp.exists_counter hinfo
  refine ⟨fun N hback => ?_, fun n σ hσ => ?_⟩
  · exact WhileLICM.preservesTo_matchAndRewrite hw henv hinfo hcounter (hholds info hinfo) hp
      (hback info counter hinfo hcounter) henv'
  · exact WhileLICM.preservesTo_matchAndRewrite hw henv hinfo hcounter (hholds info hinfo) hp
      (hcounter.neverBack hw henv hσ) henv'

/-! ### Two values set from outside -/

namespace SumLoop

/-- A counter, two values that get a value from outside, and a sum of the second of them. -/
def sumLoop (carried : List (Carried Nat)) : WhileOp Unit Nat where
  loop := ⟨carried, [⟨15, .compare .LT, [12, 6]⟩], 15,
    [⟨24, .add ⟨64, false⟩, [22, 7]⟩, ⟨25, .add ⟨64, false⟩, [23, 21]⟩]⟩
  defs v := if v = 7 then some (.constant (ofInt 1), []) else none

def first : Carried Nat := ⟨0, 10, 20, 4, 30⟩

def second : Carried Nat := ⟨1, 11, 21, 5, 31⟩

def counter : Carried Nat := ⟨2, 12, 22, 24, 32⟩

def sum : Carried Nat := ⟨3, 13, 23, 25, 33⟩

def functionArguments : Hoisting Nat := ⟨false, fun _ => true, fun _ => true⟩

/-- Both values are 100 after the first iteration, and there is one iteration. -/
def outside (v : Nat) : Val Unit := ofInt (([0, 1, 0, 5, 100, 100, 1, 1] : List Int).getD v 0)

def outsideOld : Name Nat → Val Unit
  | .old v => outside v
  | _ => ofInt 0

theorem wellFormed_sumLoop {carried : List (Carried Nat)} (h : carried = [first, second, counter, sum] ∨
    carried = [counter, first, second, sum]) : (sumLoop carried).WellFormed := by
  have hdefs : (sumLoop carried).definedOutside 7 = true → ∀ v op operands,
      (sumLoop carried).defs v = some (op, operands) →
        (sumLoop carried).definedOutside v = true ∧ ∀ a ∈ operands, (sumLoop carried).definedOutside a = true := by
    intro hout v op operands hv
    rw [sumLoop] at hv
    obtain ⟨rfl, hv⟩ := ite_none_right_eq_some.mp hv
    cases some.inj hv
    exact ⟨hout, fun a ha => absurd ha not_mem_nil⟩
  rcases h with rfl | rfl <;>
    exact ⟨by decide, by decide, by decide, by decide, by decide, by decide, by decide, by decide, hdefs (by decide)⟩

theorem holds_sumLoop (carried : List (Carried Nat)) : (sumLoop carried).Holds outside := by
  intro v op operands hv
  rw [sumLoop] at hv
  obtain ⟨rfl, hv⟩ := ite_none_right_eq_some.mp hv
  cases some.inj hv
  rfl

/-- Behind the counter the values are removed. -/
theorem preservesTo_counter_first :
    (∃ p, WhileLICM.matchAndRewrite functionArguments (sumLoop [counter, first, second, sum]) = some p ∧
      PreservesTo (semantics Unit) (sumLoop [counter, first, second, sum]).loop p ⟨.old, .old, .old⟩ outside
        outsideOld 1) ∧
    ((sumLoop [counter, first, second, sum]).loop.exits (semantics Unit) outside 1).isSome := by
  have hexits : ((sumLoop [counter, first, second, sum]).loop.exits (semantics Unit) outside 1).isSome := by
    decide +kernel
  refine ⟨?_, hexits⟩
  obtain ⟨σ, hσ⟩ := isSome_iff_exists.mp hexits
  have hfires : (WhileLICM.matchAndRewrite functionArguments (sumLoop [counter, first, second, sum])).isSome := by
    decide +kernel
  obtain ⟨p, hp⟩ := isSome_iff_exists.mp hfires
  have hinfo : (sumLoop [counter, first, second, sum]).extractSimpleIVInfo = some ⟨0, 1, 6, 2⟩ := by decide +kernel
  refine ⟨p, hp, ((preservesTo_of_removed functionArguments _ (wellFormed_sumLoop (.inr rfl))).2 p hp ?_ outside
    outsideOld (holds_sumLoop _) fun v => rfl).2 1 σ hσ⟩
  intro info h
  rw [hinfo] at h
  cases h
  have hholds : ∀ p q : Fin 4, p < q →
      WhileLICM.removes functionArguments (sumLoop [counter, first, second, sum]) ⟨0, 1, 6, 2⟩
        ([counter, first, second, sum].get p) = true →
      0 < p.val ∧ ∀ j : Fin 4, p < j → ∀ i ∈ (sumLoop [counter, first, second, sum]).loop.condOps,
        ([counter, first, second, sum].get j).condArg ∉ i.operands := by decide
  intro p q hp hq hpq hfirst _
  exact (hholds ⟨p, hp⟩ ⟨q, hq⟩ hpq hfirst).imp id fun h j hj hpj => h ⟨j, hj⟩ hpj

/-- In front of the counter the first of them moves the counter to another number. -/
theorem not_preservesTo_counter_behind : (sumLoop [first, second, counter, sum]).WellFormed ∧
    (sumLoop [first, second, counter, sum]).Holds outside ∧
    ∃ p σ, WhileLICM.matchAndRewrite functionArguments (sumLoop [first, second, counter, sum]) = some p ∧
      (sumLoop [first, second, counter, sum]).loop.exits (semantics Unit) outside 1 = some σ ∧
      ¬PreservesTo (semantics Unit) (sumLoop [first, second, counter, sum]).loop p ⟨.old, .old, .old⟩ outside
        outsideOld 1 := by
  have hresults : ((sumLoop [first, second, counter, sum]).loop.exits (semantics Unit) outside 1).map
      (fun σ => (toInt (σ 33), toInt (σ 31))) = some (some 6, some 100) := by decide +kernel
  have hresults' : (WhileLICM.matchAndRewrite functionArguments (sumLoop [first, second, counter, sum])).bind
      (fun p => (p.exits (semantics Unit) outsideOld 1).map
        fun σ => (toInt (σ (.old 33)), toInt (σ (.old 31)))) = some (some 105, some 1) := by decide +kernel
  obtain ⟨σ, hσ, hsum⟩ := map_eq_some_iff.mp hresults
  obtain ⟨p, hp, hp'⟩ := bind_eq_some_iff.mp hresults'
  obtain ⟨τ, hτ, hsum'⟩ := map_eq_some_iff.mp hp'
  refine ⟨wellFormed_sumLoop (.inl rfl), holds_sumLoop _, p, σ, hp, hσ, fun h => ?_⟩
  obtain ⟨τ', hτ', hsame⟩ := h.exits 1 le_rfl σ hσ
  rw [hτ] at hτ'
  cases hτ'
  rw [← hsame, ← hsame] at hsum
  rw [hsum] at hsum'
  cases hsum'

end SumLoop

end EnzymeJax.WhileLoop
