import EnzymeJax.Scf.Semantics
import EnzymeJax.Scf.WhileToFor

/-!
# The counter of a while loop

What `considerStep` and `detect` find is so in every evaluation: the counter, or the counter after its step, is
compared, and `after` steps it. A second condition is looked through. Only a counter that is stepped in a branch
of an `scf.if` is another matter.
-/

namespace EnzymeJax.Scf

open List Option

variable {W D : Type}

namespace WhileOp

variable (loop : WhileOp W D) (outsideOps : List (Op W D))

/-- What the region `before` sees. -/
def SeenBefore (v : Value) : Prop :=
  (∀ i, v ≠ .arg .after i) ∧ (∀ op ∈ loop.afterOps, v ∉ op.results) ∧ ∀ c, v ≠ .created c

/-- What the region `after` sees. -/
def SeenAfter (v : Value) : Prop :=
  (∀ i, v ≠ .arg .before i) ∧ (∀ op ∈ loop.beforeOps, v ∉ op.results) ∧ ∀ c, v ≠ .created c

/-- What is seen in front of the loop. -/
def SeenOutside (v : Value) : Prop := loop.isInside v = false ∧ ∀ c, v ≠ .created c

/-- What the verifier asks of the loop and of the operations in front of it. -/
structure WellFormed : Prop where
  before_ordered : Op.Ordered loop.beforeOps
  after_ordered : Op.Ordered loop.afterOps
  before_results : ∀ op ∈ loop.beforeOps, ∀ v ∈ op.results, ∃ id, v = .result id
  after_results : ∀ op ∈ loop.afterOps, ∀ v ∈ op.results, ∃ id, v = .result id
  before_uses : ∀ v ∈ Op.allUses loop.beforeOps ++ loop.condition :: loop.condArgs, loop.SeenBefore v
  after_uses : ∀ v ∈ Op.allUses loop.afterOps ++ loop.yields, loop.SeenAfter v
  inits_outside : ∀ v ∈ loop.inits, loop.SeenOutside v
  yields_length : loop.yields.length = loop.inits.length
  outside_results : ∀ op ∈ outsideOps, ∀ v ∈ op.results, loop.SeenOutside v
  outside_uses : ∀ op ∈ outsideOps, ∀ v ∈ op.uses, loop.SeenOutside v

/-- The values in front of the loop are what their operations make of the operands. -/
def Holds (env : Env D) : Prop := ∀ p r as, Op.prim p r as ∈ outsideOps → env r = p.eval (as.map env)

end WhileOp

/-! ### Environments of the regions -/

variable {loop : WhileOp W D} {outsideOps : List (Op W D)} {env : Env D} {s : W × List (Val D)} {v : Value}

variable {ops : List (Op W D)} {op : Op W D}

theorem mem_allDefines (hop : op ∈ ops) (hv : v ∈ op.results) : v ∈ Op.allDefines ops := by
  induction ops with
  | nil => cases hop
  | cons o ops ih =>
    rw [Op.allDefines, mem_append]
    rcases mem_cons.mp hop with rfl | hop
    · left
      cases op with
      | ifOp rs c thenOps thenYield elseOps elseYield =>
        rw [Op.defines]
        exact mem_append_left _ hv
      | prim p r as | other rs as f | effect rs as f => exact hv
    · exact .inr (ih hop)

theorem mem_of_definingOp (h : definingOp ops v = some op) : op ∈ ops ∧ v ∈ op.results := by
  refine ⟨mem_of_find?_eq_some h, ?_⟩
  simpa using find?_some h

namespace WhileOp

variable {i : Nat} {stepping : Stepping}

section

variable (hw : loop.WellFormed outsideOps)

include hw

theorem WellFormed.isInside_of_mem (hop : op ∈ loop.beforeOps ++ loop.afterOps) (hv : v ∈ op.results) :
    loop.isInside v = true := by
  have hdefines : v ∈ Op.allDefines loop.beforeOps ++ Op.allDefines loop.afterOps := by
    rcases mem_append.mp hop with hop | hop
    · exact mem_append_left _ (mem_allDefines hop hv)
    · exact mem_append_right _ (mem_allDefines hop hv)
  obtain ⟨id, rfl⟩ : ∃ id, v = .result id := by
    rcases mem_append.mp hop with hop | hop
    · exact hw.before_results op hop v hv
    · exact hw.after_results op hop v hv
  exact decide_eq_true hdefines

theorem WellFormed.seenBefore (hv : loop.SeenOutside v) : loop.SeenBefore v := by
  refine ⟨fun i heq => ?_, fun op hop hmem => ?_, hv.2⟩
  · subst heq
    cases hv.1
  · have h := hw.isInside_of_mem (mem_append_right _ hop) hmem
    rw [hv.1] at h
    cases h

theorem WellFormed.seenAfter (hv : loop.SeenOutside v) : loop.SeenAfter v := by
  refine ⟨fun i heq => ?_, fun op hop hmem => ?_, hv.2⟩
  · subst heq
    cases hv.1
  · have h := hw.isInside_of_mem (mem_append_left _ hop) hmem
    rw [hv.1] at h
    cases h

theorem WellFormed.evaluate_outside (hv : loop.SeenOutside v) : (loop.evaluate env s).2 v = env v := by
  rw [evaluate, runAll_frame fun op hop hmem => (hw.seenAfter hv).2.1 op hop hmem]
  cases v with
  | arg owner number =>
    refine if_neg fun heq => ?_
    subst heq
    cases hv.1
  | result id | created name => rfl

theorem WellFormed.evaluate_arg {x : Val D} (hx : s.2[i]? = some x) :
    (loop.evaluate env s).2 (.arg .before i) = x := by
  have hframe : ∀ op ∈ loop.beforeOps, Value.arg .before i ∉ op.results := by
    intro op hop hmem
    obtain ⟨id, hid⟩ := hw.before_results op hop _ hmem
    cases hid
  rw [evaluate, runAll_frame hframe]
  rw [Env.bindArgs_arg, hx, getD_some]

theorem WellFormed.body_outside (hv : loop.SeenOutside v) : (loop.body env s).2 v = env v := by
  rw [body, runAll_frame fun op hop hmem => (hw.seenBefore hv).2.1 op hop hmem]
  cases v with
  | arg owner number =>
    refine if_neg fun heq => ?_
    subst heq
    cases hv.1
  | result id | created name => rfl

theorem WellFormed.body_arg {x : Val D} (hx : s.2[i]? = some x) :
    (loop.body env s).2 (.arg .after i) = x := by
  have hframe : ∀ op ∈ loop.afterOps, Value.arg .after i ∉ op.results := by
    intro op hop hmem
    obtain ⟨id, hid⟩ := hw.after_results op hop _ hmem
    cases hid
  rw [body, runAll_frame hframe]
  rw [Env.bindArgs_arg, hx, getD_some]

omit hw in
theorem body_eq_evaluate {s' : W × List (Val D)} (hbefore : loop.SeenBefore v) (hafter : loop.SeenAfter v) :
    (loop.body env s').2 v = (loop.evaluate env s).2 v := by
  rw [body, evaluate, runAll_frame fun op hop hmem => hbefore.2.1 op hop hmem,
    runAll_frame fun op hop hmem => hafter.2.1 op hop hmem]
  cases v with
  | arg owner number =>
    have hne : owner ≠ .after := fun heq => hbefore.1 number (heq ▸ rfl)
    have hne' : owner ≠ .before := fun heq => hafter.1 number (heq ▸ rfl)
    change (if owner = .after then _ else _) = if owner = .before then _ else _
    rw [if_neg hne, if_neg hne']
  | result id | created name => rfl

variable {r b a sv sv' l : Value} {as : List Value} {type : IntType} {block : Block} {beforeArg : Option Nat}

theorem WellFormed.eval_before {p : Prim D} (hholds : Holds outsideOps env) (hv : loop.SeenBefore v)
    (h : definingOp (visibleOps loop outsideOps) v = some (.prim p r as)) :
    (∀ s, (loop.evaluate env s).2 v = p.eval (as.map (loop.evaluate env s).2)) ∧ ∀ a ∈ as, loop.SeenBefore a := by
  obtain ⟨hmem, hres⟩ := mem_of_definingOp h
  obtain rfl := mem_singleton.mp hres
  rcases mem_append.mp hmem with hmem | hmem
  · rcases mem_append.mp hmem with hmem | hmem
    · have hout : ∀ a ∈ as, loop.SeenOutside a := fun a ha => hw.outside_uses _ hmem a ha
      refine ⟨fun s => ?_, fun a ha => hw.seenBefore (hout a ha)⟩
      rw [hw.evaluate_outside (hw.outside_results _ hmem v hres), hholds p v as hmem]
      exact congrArg _ (map_congr_left fun a ha => (hw.evaluate_outside (hout a ha)).symm)
    · exact ⟨fun s => eval_of_runAll hw.before_ordered hmem,
        fun a ha => hw.before_uses a (mem_append_left _ (mem_allUses hmem ha))⟩
  · exact absurd hres (hv.2.1 _ hmem)

theorem WellFormed.eval_after {p : Prim D} (hholds : Holds outsideOps env) (hv : loop.SeenAfter v)
    (h : definingOp (visibleOps loop outsideOps) v = some (.prim p r as)) :
    (∀ s, (loop.body env s).2 v = p.eval (as.map (loop.body env s).2)) ∧ ∀ a ∈ as, loop.SeenAfter a := by
  obtain ⟨hmem, hres⟩ := mem_of_definingOp h
  obtain rfl := mem_singleton.mp hres
  rcases mem_append.mp hmem with hmem | hmem
  · rcases mem_append.mp hmem with hmem | hmem
    · have hout : ∀ a ∈ as, loop.SeenOutside a := fun a ha => hw.outside_uses _ hmem a ha
      refine ⟨fun s => ?_, fun a ha => hw.seenAfter (hout a ha)⟩
      rw [hw.body_outside (hw.outside_results _ hmem v hres), hholds p v as hmem]
      exact congrArg _ (map_congr_left fun a ha => (hw.body_outside (hout a ha)).symm)
    · exact absurd hres (hv.2.1 _ hmem)
  · exact ⟨fun s => eval_of_runAll hw.after_ordered hmem,
      fun a ha => hw.after_uses a (mem_append_left _ (mem_allUses hmem ha))⟩

/-! ### Negations -/

theorem WellFormed.eval_one (hholds : Holds outsideOps env) (hb : loop.SeenBefore b)
    (hone : isOne (visibleOps loop outsideOps) b = true) :
    (loop.evaluate env s).2 b = .int 1 ∨ (loop.evaluate env s).2 b = .bool true := by
  rw [isOne] at hone
  split at hone
  · rename_i n r hdef
    obtain rfl : n = 1 := of_decide_eq_true hone
    exact .inl ((hw.eval_before hholds hb hdef).1 s)
  · rename_i x r hdef
    obtain rfl : x = true := hone
    exact .inr ((hw.eval_before hholds hb hdef).1 s)
  · cases hone

/-- A truth value and what is found behind its negations, where the search ends. -/
theorem WellFormed.lookThroughNot_spec {fuel : Nat} {u : Value} {negate negate' : Bool} (hholds : Holds outsideOps env)
    (hv : loop.SeenBefore v) (h : lookThroughNot (visibleOps loop outsideOps) fuel v negate = some (u, negate')) :
    loop.SeenBefore u ∧ (∀ (s : W × List (Val D)) b, (loop.evaluate env s).2 v = .bool b →
        (loop.evaluate env s).2 u = .bool (b ^^ (negate ^^ negate'))) ∧
      ∀ fuel' n, lookThroughNot (visibleOps loop outsideOps) (fuel' + 1) u n = some (u, n) := by
  induction fuel generalizing v negate with
  | zero => cases h
  | succ fuel ih =>
    rw [lookThroughNot] at h
    split at h
    · rename_i r a b hdef
      obtain ⟨hone, h⟩ := ite_none_right_eq_some.mp h
      obtain ⟨heval, hseen⟩ := hw.eval_before hholds hv hdef
      have hb : loop.SeenBefore b := hseen b (by simp)
      obtain ⟨hu, hval, hend⟩ := ih (hseen a (by simp)) h
      refine ⟨hu, fun s x hx => ?_, hend⟩
      have hxor := heval s
      rw [hx, map_cons, map_singleton] at hxor
      obtain ⟨c, d, ha, hd, hxor⟩ := eval_xorI.mp hxor.symm
      obtain rfl : d = true := by
        rcases hw.eval_one hholds hb hone with hone | hone
        · rw [hone] at hd
          cases hd
        · exact Val.bool.inj (hd.symm.trans hone)
      rw [hval s c ha, ← hxor]
      cases c <;> cases negate <;> cases negate' <;> rfl
    · rename_i hdef
      cases some.inj h
      refine ⟨hv, fun s b hb => by rw [hb, Bool.xor_self, Bool.xor_false], fun fuel' n => ?_⟩
      rw [lookThroughNot]
      split
      · rename_i r a b hdef'
        exact absurd hdef' (hdef r a b)
      · rfl

/-! ### The value that is stepped -/

theorem WellFormed.not_arg_of_outside (hv : loop.SeenOutside v)
    (h : definingOp (visibleOps loop outsideOps) v = some (.prim (.addI type) r [a, b]))
    (hblock : block = .before ∨ block = .after) : a ≠ .arg block i ∧ b ≠ .arg block i := by
  obtain ⟨hmem, hres⟩ := mem_of_definingOp h
  have hout : ∀ u, loop.SeenOutside u → u ≠ .arg block i := by
    rintro u hu rfl
    rcases hblock with rfl | rfl
    · exact absurd hu.1 (by simp [isInside])
    · exact absurd hu.1 (by simp [isInside])
  rcases mem_append.mp hmem with hmem | hmem
  · rcases mem_append.mp hmem with hmem | hmem
    · exact ⟨hout a (hw.outside_uses _ hmem a (by simp [Op.uses])), hout b (hw.outside_uses _ hmem b (by simp [Op.uses]))⟩
    · exact absurd hres ((hw.seenAfter hv).2.1 _ hmem)
  · exact absurd hres ((hw.seenBefore hv).2.1 _ hmem)

theorem WellFormed.steppedValue_before (hholds : Holds outsideOps env) (hl : loop.SeenBefore l)
    (hsv : loop.SeenBefore sv) (h : steppedValue loop (visibleOps loop outsideOps) beforeArg sv l = some sv')
    (hadd : definingOp (visibleOps loop outsideOps) sv' = some (.prim (.addI type) r [a, b]))
    (hblock : block = .before ∨ block = .after) (hab : a = .arg block i ∨ b = .arg block i) :
    loop.SeenBefore sv' ∧ ∀ s : W × List (Val D), (loop.evaluate env s).2 l = .bool true →
      (loop.evaluate env s).2 sv = (loop.evaluate env s).2 sv' := by
  obtain ⟨⟨l', n⟩, hnot, h⟩ := bind_eq_some_iff.mp h
  obtain ⟨hl', hval, hend⟩ := hw.lookThroughNot_spec hholds hl hnot
  dsimp only at h
  split at h
  · rename_i results condition thenOps thenYield elseOps elseYield hdef
    obtain ⟨⟨_, n'⟩, -, h⟩ := bind_eq_some_iff.mp h
    dsimp only at h
    split at h
    · split at h
      · -- a result of the operation would be what the region `after` yields
        rename_i k hk
        obtain ⟨p, -, hp⟩ := bind_eq_some_iff.mp hk
        obtain ⟨y, hy, hfind⟩ := bind_eq_some_iff.mp hp
        obtain ⟨hlt, heq, -⟩ := findIdx?_eq_some_iff_getElem.mp hfind
        rw [decide_eq_true_eq] at heq
        obtain ⟨hmem, hres⟩ := mem_of_definingOp hdef
        have hyAfter : loop.SeenAfter y := hw.after_uses y (mem_append_right _ (mem_of_getElem? hy))
        have hymem : y ∈ results := heq ▸ getElem_mem hlt
        rcases mem_append.mp hmem with hmem | hmem
        · rcases mem_append.mp hmem with hmem | hmem
          · have hout : loop.SeenOutside sv' := by
              refine hw.outside_uses _ hmem sv' ?_
              rw [Op.uses]
              have hyield := mem_of_getElem? h
              split at hyield
              · exact mem_cons_of_mem _ (by simp [hyield])
              · exact mem_cons_of_mem _ (by simp [hyield])
            obtain ⟨ha, hb⟩ := hw.not_arg_of_outside hout hadd hblock
            exact absurd hab (not_or.mpr ⟨ha, hb⟩)
          · exact absurd hymem (hyAfter.2.1 _ hmem)
        · exact absurd hres (hsv.2.1 _ hmem)
      · cases h
        exact ⟨hsv, fun _ _ => rfl⟩
    · cases h
      exact ⟨hsv, fun _ _ => rfl⟩
  · rename_i result condition trueValue falseValue hdef
    obtain ⟨⟨_, n'⟩, hnot', h⟩ := bind_eq_some_iff.mp h
    dsimp only at h
    split at h
    · rename_i heq
      subst heq
      cases some.inj ((hend _ _).symm.trans hnot')
      obtain ⟨heval, hseen⟩ := hw.eval_before hholds hsv hdef
      cases h
      refine ⟨?_, fun s htrue => ?_⟩
      · split
        · exact hseen falseValue (by simp)
        · exact hseen trueValue (by simp)
      · rw [heval, map_cons, hval s true htrue]
        cases n with
        | true | false => rfl
    · cases h
      exact ⟨hsv, fun _ _ => rfl⟩
  · cases h
    exact ⟨hsv, fun _ _ => rfl⟩

theorem WellFormed.steppedValue_after (hholds : Holds outsideOps env) (hl : loop.SeenBefore l)
    (hsv : loop.SeenAfter sv)
    (hif : ∀ rs c thenOps thenYield elseOps elseYield, definingOp (visibleOps loop outsideOps) sv ≠
      some (.ifOp rs c thenOps thenYield elseOps elseYield))
    (h : steppedValue loop (visibleOps loop outsideOps) beforeArg sv l = some sv') :
    loop.SeenAfter sv' ∧ ∀ s s' : W × List (Val D), (loop.evaluate env s).2 l = .bool true →
      (loop.body env s').2 sv = (loop.body env s').2 sv' := by
  obtain ⟨⟨l', n⟩, hnot, h⟩ := bind_eq_some_iff.mp h
  obtain ⟨hl', hval, hend⟩ := hw.lookThroughNot_spec hholds hl hnot
  dsimp only at h
  split at h
  · rename_i hdef
    exact absurd hdef (hif _ _ _ _ _ _)
  · rename_i result condition trueValue falseValue hdef
    obtain ⟨⟨_, n'⟩, hnot', h⟩ := bind_eq_some_iff.mp h
    dsimp only at h
    split at h
    · rename_i heq
      subst heq
      cases some.inj ((hend _ _).symm.trans hnot')
      obtain ⟨heval, hseen⟩ := hw.eval_after hholds hsv hdef
      cases h
      refine ⟨?_, fun s s' htrue => ?_⟩
      · split
        · exact hseen falseValue (by simp)
        · exact hseen trueValue (by simp)
      · have hcond := hval s true htrue
        have hsame : (loop.body env s').2 condition = (loop.evaluate env s).2 condition :=
          body_eq_evaluate hl' (hseen condition (by simp))
        rw [← hsame] at hcond
        rw [heval, map_cons, hcond]
        cases n with
        | true | false => rfl
    · cases h
      exact ⟨hsv, fun _ _ _ => rfl⟩
  · cases h
    exact ⟨hsv, fun _ _ _ => rfl⟩

/-! ### What is found -/

omit hw in
theorem considerStep_eq_some {inBefore : Bool} {lookThrough : Option Value}
    (h : considerStep loop ops beforeArg sv inBefore lookThrough = some (some stepping)) :
    ∃ sv', (match lookThrough with
        | some l => steppedValue loop ops beforeArg sv l
        | none => some sv) = some sv' ∧
      ∃ r a b, definingOp ops sv' = some (.prim (.addI stepping.type) r [a, b]) ∧
        ((steppedArg loop beforeArg sv' inBefore a = some stepping.indVar ∧ b = stepping.step) ∨
          (steppedArg loop beforeArg sv' inBefore b = some stepping.indVar ∧ a = stepping.step)) := by
  unfold considerStep at h
  obtain ⟨sv', hsv', h⟩ := map_eq_some_iff.mp h
  refine ⟨sv', hsv', ?_⟩
  split at h
  · rename_i type r a b hdef
    rcases or_eq_some_iff.mp h with h | ⟨-, h⟩
    · obtain ⟨p, hp, rfl⟩ := map_eq_some_iff.mp h
      exact ⟨r, a, b, hdef, .inl ⟨hp, rfl⟩⟩
    · obtain ⟨p, hp, rfl⟩ := map_eq_some_iff.mp h
      exact ⟨r, a, b, hdef, .inr ⟨hp, rfl⟩⟩
  · cases h

end

variable (loop outsideOps env)

/-- The other condition is true. -/
def FlagTrue (lookThrough : Option Value) (s : W × List (Val D)) : Prop :=
  ∀ l, lookThrough = some l → (loop.evaluate env s).2 l = .bool true

/-- Where the loop goes on, the counter is stepped. -/
def Advances (lookThrough : Option Value) (stepping : Stepping) : Prop :=
  ∀ s x c, FlagTrue loop env lookThrough s → s.2[stepping.indVar]? = some (.int x) → env stepping.step = .int c →
    ∃ y, loop.yields[stepping.indVar]? = some y ∧
      (loop.body env (loop.passed env s)).2 y = .int (stepping.type.wrap (x + c))

def YieldedByIf (indVar : Nat) : Prop :=
  ∃ y rs c thenOps thenYield elseOps elseYield, loop.yields[indVar]? = some y ∧
    definingOp (visibleOps loop outsideOps) y = some (.ifOp rs c thenOps thenYield elseOps elseYield)

variable {loop outsideOps env}

section

variable (hw : loop.WellFormed outsideOps)

include hw

variable {p q : Nat}

theorem WellFormed.eval_stepped_before {sv : Value} {type : IntType} {r a b step : Value} {x c : Int}
    (hholds : Holds outsideOps env) (hsv : loop.SeenBefore sv) (hstep : loop.SeenOutside step)
    (hadd : definingOp (visibleOps loop outsideOps) sv = some (.prim (.addI type) r [a, b]))
    (hab : (a = .arg .before p ∧ b = step) ∨ (b = .arg .before p ∧ a = step)) (hx : s.2[p]? = some (.int x))
    (hc : env step = .int c) : (loop.evaluate env s).2 sv = .int (type.wrap (x + c)) := by
  have harg : (loop.evaluate env s).2 (.arg .before p) = .int x := hw.evaluate_arg hx
  have hstep' : (loop.evaluate env s).2 step = .int c := (hw.evaluate_outside hstep).trans hc
  rw [(hw.eval_before hholds hsv hadd).1 s]
  refine eval_addI.mpr ?_
  rcases hab with ⟨rfl, rfl⟩ | ⟨rfl, rfl⟩
  · exact ⟨x, c, harg, hstep', rfl⟩
  · exact ⟨c, x, hstep', harg, by rw [Int.add_comm]⟩

omit hw in
theorem passed_getElem {r : Nat} {u : Value} (hu : loop.condArgs[r]? = some u) :
    (loop.passed env s).2[r]? = some ((loop.evaluate env s).2 u) := by
  rw [passed, getElem?_map, hu, map_some]

omit hw in
theorem steppedArg_before {sv v : Value} (h : steppedArg loop (some p) sv true v = some q) :
    v = .arg .before p ∧ q = p := by
  obtain ⟨hv, hq⟩ := ite_none_right_eq_some.mp h
  exact ⟨hv, (some.inj hq).symm⟩

omit hw in
theorem steppedArg_after {sv v : Value} (h : steppedArg loop (some p) sv false v = some q) :
    ∃ r, v = .arg .after r ∧ loop.condArgs[r]? = some (.arg .before p) ∧ q = p := by
  unfold steppedArg at h
  split at h
  · rename_i heq _
    cases heq
  · rename_i heq _
    cases heq
  · rename_i p' r _ hp
    cases hp
    obtain ⟨hr, hq⟩ := ite_none_right_eq_some.mp h
    exact ⟨r, rfl, hr, (some.inj hq).symm⟩
  · cases h

omit hw in
theorem steppedArg_updated {sv v : Value} (h : steppedArg loop none sv true v = some q) :
    v = .arg .before q ∧ ∃ r, loop.yields[q]? = some (.arg .after r) ∧ loop.condArgs[r]? = some sv := by
  unfold steppedArg at h
  split at h
  · rename_i hp
    cases hp
  · rename_i p _ _
    split at h
    · rename_i r hr
      obtain ⟨hsv, hq⟩ := ite_none_right_eq_some.mp h
      cases hq
      exact ⟨rfl, r, hr, hsv⟩
    · cases h
  · rename_i heq _
    cases heq
  · cases h

section

variable {sv sv' : Value} {beforeArg : Option Nat} {lookThrough : Option Value} {type : IntType} {r a b step : Value}

theorem WellFormed.eval_looked (hholds : Holds outsideOps env) (hsv : loop.SeenBefore sv)
    (hstep : loop.SeenOutside step) (hlooked : (match lookThrough with
        | some l => steppedValue loop (visibleOps loop outsideOps) beforeArg sv l
        | none => some sv) = some sv') (hlook : ∀ l, lookThrough = some l → loop.SeenBefore l)
    (hadd : definingOp (visibleOps loop outsideOps) sv' = some (.prim (.addI type) r [a, b]))
    (hab : (a = .arg .before p ∧ b = step) ∨ (b = .arg .before p ∧ a = step)) :
    ∀ (s : W × List (Val D)) x c, FlagTrue loop env lookThrough s → s.2[p]? = some (.int x) → env step = .int c →
      (loop.evaluate env s).2 sv = .int (type.wrap (x + c)) ∧ (loop.evaluate env s).2 sv' = .int (type.wrap (x + c)) := by
  have hab' : a = .arg .before p ∨ b = .arg .before p := hab.imp And.left And.left
  have hseen : loop.SeenBefore sv' ∧ ∀ s, FlagTrue loop env lookThrough s →
      (loop.evaluate env s).2 sv = (loop.evaluate env s).2 sv' := by
    cases lookThrough with
    | none =>
      cases hlooked
      exact ⟨hsv, fun _ _ => rfl⟩
    | some l =>
      obtain ⟨hseen, hsame⟩ := hw.steppedValue_before hholds (hlook l rfl) hsv hlooked hadd (.inl rfl) hab'
      exact ⟨hseen, fun s hflag => hsame s (hflag l rfl)⟩
  intro s x c hflag hx hc
  have hsum := hw.eval_stepped_before hholds hseen.1 hstep hadd hab hx hc
  exact ⟨(hseen.2 s hflag).trans hsum, hsum⟩

theorem WellFormed.eval_looked_after (hholds : Holds outsideOps env) (hsv : loop.SeenAfter sv)
    (hstep : loop.SeenOutside step)
    (hif : ∀ rs c thenOps thenYield elseOps elseYield, definingOp (visibleOps loop outsideOps) sv ≠
      some (.ifOp rs c thenOps thenYield elseOps elseYield)) (hlooked : (match lookThrough with
        | some l => steppedValue loop (visibleOps loop outsideOps) beforeArg sv l
        | none => some sv) = some sv') (hlook : ∀ l, lookThrough = some l → loop.SeenBefore l)
    (hadd : definingOp (visibleOps loop outsideOps) sv' = some (.prim (.addI type) r [a, b]))
    (hi : loop.condArgs[i]? = some (.arg .before p))
    (hab : (a = .arg .after i ∧ b = step) ∨ (b = .arg .after i ∧ a = step)) :
    ∀ (s : W × List (Val D)) x c, FlagTrue loop env lookThrough s → s.2[p]? = some (.int x) → env step = .int c →
      (loop.body env (loop.passed env s)).2 sv = .int (type.wrap (x + c)) := by
  have hseen : loop.SeenAfter sv' ∧ ∀ s s', FlagTrue loop env lookThrough s →
      (loop.body env s').2 sv = (loop.body env s').2 sv' := by
    cases lookThrough with
    | none =>
      cases hlooked
      exact ⟨hsv, fun _ _ _ => rfl⟩
    | some l =>
      obtain ⟨hseen, hsame⟩ := hw.steppedValue_after hholds (hlook l rfl) hsv hif hlooked
      exact ⟨hseen, fun s s' hflag => hsame s s' (hflag l rfl)⟩
  intro s x c hflag hx hc
  have harg : (loop.body env (loop.passed env s)).2 (.arg .after i) = .int x := by
    refine hw.body_arg ?_
    rw [passed_getElem hi, hw.evaluate_arg hx]
  have hstep' : (loop.body env (loop.passed env s)).2 step = .int c := (hw.body_outside hstep).trans hc
  rw [hseen.2 s _ hflag, (hw.eval_after hholds hseen.1 hadd).1]
  refine eval_addI.mpr ?_
  rcases hab with ⟨rfl, rfl⟩ | ⟨rfl, rfl⟩
  · exact ⟨x, c, harg, hstep', rfl⟩
  · exact ⟨c, x, hstep', harg, by rw [Int.add_comm]⟩

end

/-- The counter is compared, or the sum that the region `before` passes on as the next one. -/
theorem WellFormed.detect_spec {opVal : Value} {lookThrough : Option Value} {comparingUpdated : Bool}
    (hholds : Holds outsideOps env) (hopVal : loop.SeenBefore opVal)
    (hlook : ∀ l, lookThrough = some l → loop.SeenBefore l) (hstep : loop.SeenOutside stepping.step)
    (h : detect loop outsideOps opVal lookThrough = some (.found stepping comparingUpdated)) :
    (∀ s x c, (comparingUpdated = true → FlagTrue loop env lookThrough s) → s.2[stepping.indVar]? = some (.int x) →
        env stepping.step = .int c →
        (loop.evaluate env s).2 opVal = .int (if comparingUpdated then stepping.type.wrap (x + c) else x)) ∧
      (¬YieldedByIf loop outsideOps stepping.indVar → Advances loop env lookThrough stepping) := by
  have hofStep : ∀ {o : Option (Option Stepping)} {updated}, o.map (Detected.ofStep updated) =
      some (.found stepping comparingUpdated) → o = some (some stepping) ∧ updated = comparingUpdated := by
    intro o updated h
    obtain ⟨o', rfl, hfound⟩ := map_eq_some_iff.mp h
    cases o' with
    | none => cases hfound
    | some st =>
      obtain ⟨rfl, rfl⟩ := Detected.found.inj hfound
      exact ⟨rfl, rfl⟩
  unfold detect at h
  dsimp only at h
  split at h
  · rename_i p
    -- the counter of the comparison is the one that is stepped
    have hcompared : stepping.indVar = p → comparingUpdated = false →
        ∀ (s : W × List (Val D)) x c, (comparingUpdated = true → FlagTrue loop env lookThrough s) →
          s.2[stepping.indVar]? = some (.int x) → env stepping.step = .int c → (loop.evaluate env s).2 (.arg .before p) =
            .int (if comparingUpdated then stepping.type.wrap (x + c) else x) := by
      rintro rfl rfl s x c - hx -
      rw [hw.evaluate_arg hx, if_neg Bool.false_ne_true]
    have hindVar : ∀ {ops sv}, considerStep loop ops (some p) sv false lookThrough = some (some stepping) →
        stepping.indVar = p := by
      intro ops sv h
      obtain ⟨sv', -, r, a, b, -, hab⟩ := considerStep_eq_some h
      rcases hab with ⟨ha, -⟩ | ⟨hb, -⟩
      · obtain ⟨-, -, -, hp⟩ := steppedArg_after ha
        exact hp
      · obtain ⟨-, -, -, hp⟩ := steppedArg_after hb
        exact hp
    split at h
    · rename_i r hyield
      split at h
      · rename_i sv hsv
        obtain ⟨h, hupdated⟩ := hofStep h
        obtain ⟨sv', hlooked, res, a, b, hadd, hab⟩ := considerStep_eq_some h
        have hab' : stepping.indVar = p ∧
            ((a = .arg .before p ∧ b = stepping.step) ∨ (b = .arg .before p ∧ a = stepping.step)) := by
          rcases hab with ⟨ha, hb⟩ | ⟨hb, ha⟩
          · obtain ⟨ha, hp⟩ := steppedArg_before ha
            exact ⟨hp, .inl ⟨ha, hb⟩⟩
          · obtain ⟨hb, hp⟩ := steppedArg_before hb
            exact ⟨hp, .inr ⟨hb, ha⟩⟩
        obtain ⟨rfl, hab'⟩ := hab'
        refine ⟨hcompared rfl hupdated.symm, fun _ s x c hflag hx hc => ⟨_, hyield, ?_⟩⟩
        have hsvSeen : loop.SeenBefore sv :=
          hw.before_uses sv (mem_append_right _ (mem_cons_of_mem _ (mem_of_getElem? hsv)))
        rw [hw.body_arg (passed_getElem hsv)]
        exact (hw.eval_looked hholds hsvSeen hstep hlooked hlook hadd hab' s x c hflag hx hc).1
      · cases h
    · obtain hfound := some.inj h
      cases hfound
    · rename_i pval hne hne' hyield
      split at h
      · rename_i rs cond thenOps thenYield elseOps elseYield hdef
        have hif : YieldedByIf loop outsideOps p := ⟨_, _, _, _, _, _, _, hyield, hdef⟩
        obtain ⟨i, -, h⟩ := bind_eq_some_iff.mp h
        obtain ⟨thenVal, -, h⟩ := bind_eq_some_iff.mp h
        obtain ⟨elseVal, -, h⟩ := bind_eq_some_iff.mp h
        split at h
        · obtain ⟨h, hupdated⟩ := hofStep h
          obtain rfl := hindVar h
          exact ⟨hcompared rfl hupdated.symm, fun hnot => absurd hif hnot⟩
        · split at h
          · obtain ⟨h, hupdated⟩ := hofStep h
            obtain rfl := hindVar h
            exact ⟨hcompared rfl hupdated.symm, fun hnot => absurd hif hnot⟩
          · cases some.inj h
      · rename_i hnot
        obtain ⟨h, hupdated⟩ := hofStep h
        obtain ⟨sv', hlooked, res, a, b, hadd, hab⟩ := considerStep_eq_some h
        have hab' : ∃ i, loop.condArgs[i]? = some (.arg .before p) ∧ stepping.indVar = p ∧
            ((a = .arg .after i ∧ b = stepping.step) ∨ (b = .arg .after i ∧ a = stepping.step)) := by
          rcases hab with ⟨ha, hb⟩ | ⟨hb, ha⟩
          · obtain ⟨i, ha, hi, hp⟩ := steppedArg_after ha
            exact ⟨i, hi, hp, .inl ⟨ha, hb⟩⟩
          · obtain ⟨i, hb, hi, hp⟩ := steppedArg_after hb
            exact ⟨i, hi, hp, .inr ⟨hb, ha⟩⟩
        obtain ⟨i, hi, rfl, hab'⟩ := hab'
        refine ⟨hcompared rfl hupdated.symm, fun _ s x c hflag hx hc => ⟨_, hyield, ?_⟩⟩
        have hpvalSeen : loop.SeenAfter pval :=
          hw.after_uses pval (mem_append_right _ (mem_of_getElem? hyield))
        exact hw.eval_looked_after hholds hpvalSeen hstep (fun _ _ _ _ _ _ hdef => hnot _ _ _ _ _ _ hdef) hlooked
          hlook hadd hi hab' s x c hflag hx hc
    · cases h
  · cases some.inj h
  · obtain ⟨hconsider, rfl⟩ := hofStep h
    obtain ⟨sv', hlooked, res, a, b, hadd, hab⟩ := considerStep_eq_some hconsider
    have hab' : (∃ r, loop.yields[stepping.indVar]? = some (.arg .after r) ∧ loop.condArgs[r]? = some sv') ∧
        ((a = .arg .before stepping.indVar ∧ b = stepping.step) ∨
          (b = .arg .before stepping.indVar ∧ a = stepping.step)) := by
      rcases hab with ⟨ha, hb⟩ | ⟨hb, ha⟩
      · obtain ⟨ha, hyield⟩ := steppedArg_updated ha
        exact ⟨hyield, .inl ⟨ha, hb⟩⟩
      · obtain ⟨hb, hyield⟩ := steppedArg_updated hb
        exact ⟨hyield, .inr ⟨hb, ha⟩⟩
    obtain ⟨⟨r, hyield, hpassed⟩, hab'⟩ := hab'
    have hsum := hw.eval_looked hholds hopVal hstep hlooked hlook hadd hab'
    refine ⟨fun s x c hflag hx hc => ?_, fun _ s x c hflag hx hc => ⟨_, hyield, ?_⟩⟩
    · rw [(hsum s x c (hflag rfl) hx hc).1, if_pos rfl]
    · rw [hw.body_arg (passed_getElem hpassed)]
      exact (hsum s x c hflag hx hc).2

end

end WhileOp

end EnzymeJax.Scf
