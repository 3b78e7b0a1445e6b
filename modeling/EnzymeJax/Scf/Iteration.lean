import EnzymeJax.Scf.Counter

/-!
# An iteration of the new loop

The body of the new loop is `before`, unless the other condition was false before, and `after`, unless a guard forbids
it. One iteration does what one evaluation of the condition and one run of `after` do, as long as both are to be
done.
-/

namespace EnzymeJax.Scf

open List Function

variable {W D : Type} {loop : WhileOp W D} {outsideOps : List (Op W D)} {env front : Env D} {ops : List (Op W D)}

/-! ### The operation in front of the loop -/

/-- The region `before` without what is moved in front of the loop. -/
structure Front (loop : WhileOp W D) (env front : Env D) (ops : List (Op W D)) : Prop where
  evaluate_eq : ∀ w xs, runAll ops (w, front.bindArgs .before xs) = loop.evaluate env (w, xs)
  agree : ∀ v, (∀ op ∈ loop.beforeOps, v ∉ op.results) → front v = env v
  sublist : ops.Sublist loop.beforeOps

theorem allUses_sublist {ops' : List (Op W D)} (h : ops'.Sublist ops) : Op.allUses ops' ⊆ Op.allUses ops := by
  induction h with
  | slnil => exact Subset.refl _
  | cons op _ ih => exact subset_append_of_subset_right _ ih
  | cons_cons op _ ih =>
    rw [Op.allUses, Op.allUses]
    exact append_subset.mpr ⟨subset_append_left .., subset_append_of_subset_right _ ih⟩

theorem Front.refl (loop : WhileOp W D) (env : Env D) : Front loop env env loop.beforeOps :=
  ⟨fun _ _ => rfl, fun _ _ => rfl, Sublist.refl _⟩

variable {v : Value}

theorem Front.of_moved (hw : loop.WellFormed outsideOps) {op : Op W D} (hop : op ∈ loop.beforeOps)
    (hv : v ∈ op.results) (hpure : op.isPure = true) (huses : ∀ u ∈ op.uses, loop.SeenOutside u) (env : Env D) (w : W) :
    Front loop env (op.run (w, env)).2 (loop.beforeOps.filter fun o => !decide (v ∈ o.results)) := by
  obtain ⟨before, after, hsplit⟩ := append_of_mem hop
  have hordered := hw.before_ordered.1
  rw [hsplit, pairwise_append, pairwise_cons] at hordered
  obtain ⟨-, ⟨hlater, -⟩, hearlier⟩ := hordered
  have hres : ∀ u ∈ op.results, ∃ id, u = .result id := hw.before_results op hop
  have hseen : ∀ i ∈ loop.beforeOps, ∀ u ∈ op.uses, u ∉ i.results := fun i hi u hu =>
    (hw.seenAfter (huses u hu)).2.1 i hi
  have hbefore : ∀ i ∈ before, ∀ u ∈ op.results, u ∉ i.results ∧ u ∉ i.uses := fun i hi u hu =>
    hearlier i hi op mem_cons_self u hu
  have hfilter : (loop.beforeOps.filter fun o => !decide (v ∈ o.results)) = before ++ after := by
    rw [hsplit, filter_append, filter_cons_of_neg (by simpa using hv), filter_eq_self.mpr, filter_eq_self.mpr]
    · intro o ho
      simpa using fun hmem => (hlater o ho v hmem).1 hv
    · intro o ho
      simpa using (hbefore o ho v hv).1
  refine ⟨fun w' xs => ?_, fun u hu => ?_, filter_sublist⟩
  · have hargs : (w', (op.run (w, env)).2.bindArgs .before xs) = op.run (w', env.bindArgs .before xs) := by
      have hworld := Op.run_fst_of_isPure op (w', env.bindArgs .before xs) hpure
      refine Prod.ext hworld.symm (funext fun u => ?_)
      by_cases hu : u ∈ op.results
      · obtain ⟨id, rfl⟩ := hres u hu
        have huse : ∀ a ∈ op.uses, env.bindArgs .before xs a = env a := by
          intro a ha
          have houtside := huses a ha
          cases a with
          | arg owner number =>
            refine if_neg fun heq => ?_
            subst heq
            cases houtside.1
          | result id | created name => rfl
        calc (op.run (w, env)).2 (.result id)
          _ = (op.run (w', env)).2 (.result id) := congrFun (Op.run_snd_of_isPure op env hpure) _
          _ = (op.run (w', env.bindArgs .before xs)).2 (.result id) := (Op.run_results huse hu).symm
      · rw [Op.run_frame hu]
        cases u with
        | arg owner number =>
          change (if owner = .before then _ else _) = if owner = .before then _ else _
          rw [Op.run_frame hu]
        | result id | created name => exact Op.run_frame hu
    rw [hfilter, hargs, runAll_append, ← runAll_comm hpure hbefore fun i hi => hseen i (hsplit ▸ mem_append_left _ hi),
      WhileOp.evaluate, hsplit, runAll_append, runAll]
  · exact Op.run_frame (hu op hop)

/-! ### The evaluation of the condition -/

namespace MoveWhileToFor

/-- A value of the source, not one that is created. -/
def IsSource (v : Value) : Prop := ∀ c, v ≠ .created c

/-- The environment at the begin of an iteration. -/
structure Entered (loop : WhileOp W D) (front X : Env D) (lookThrough : Option Value) (carried passed : List (Val D))
    (flag : Val D) (iv bound : Int) : Prop where
  source : ∀ v, IsSource v → X v = front.bindArgs .before carried v
  slots : (slots loop).map X = passed
  flag : lookThrough.isSome = true → X (.created .lookThrough) = flag
  inductionVar : X (.created .inductionVar) = .int iv
  upperBound : X (.created .upperBound) = .int bound

/-- The environment after the evaluation of the condition. -/
structure Evaluated (loop : WhileOp W D) (env Y : Env D) (passed next : List Value) (ps ns : List (Val D))
    (iv bound : Int) : Prop where
  source : ∀ v, loop.SeenAfter v → Y v = env v
  passed : passed.map Y = ps
  next : next.map Y = ns
  inductionVar : Y (.created .inductionVar) = .int iv
  upperBound : Y (.created .upperBound) = .int bound

variable {X : Env D} {w : W} {lookThrough : Option Value} {carried passed : List (Val D)} {flag : Val D}
    {iv bound : Int}

theorem Entered.similar (h : Entered loop front X lookThrough carried passed flag iv bound)
    (hw : loop.WellFormed outsideOps) (hfront : Front loop env front ops) :
    Similar IsSource (loop.evaluate env (w, carried)) (runAll ops (w, X)) := by
  have hstart : Similar IsSource (w, front.bindArgs .before carried) (w, X) := ⟨rfl, h.source⟩
  rw [← hfront.evaluate_eq]
  refine runAll_similar ops (fun v hv => ?_) hstart
  exact (hw.before_uses v (mem_append_left _ (allUses_sublist hfront.sublist hv))).2.2

theorem evaluate_seenAfter (hv : loop.SeenAfter v) : (loop.evaluate env (w, carried)).2 v = env v := by
  rw [WhileOp.evaluate, runAll_frame fun op hop hmem => hv.2.1 op hop hmem]
  cases v with
  | arg owner number =>
    refine if_neg fun heq => ?_
    subst heq
    exact hv.1 number rfl
  | result id | created name => rfl

theorem Entered.seenAfter (h : Entered loop front X lookThrough carried passed flag iv bound)
    (hfront : Front loop env front ops) (hv : loop.SeenAfter v) : X v = env v := by
  rw [h.source v hv.2.2, ← hfront.agree v fun op hop => hv.2.1 op hop]
  cases v with
  | arg owner number =>
    refine if_neg fun heq => ?_
    subst heq
    exact hv.1 number rfl
  | result id | created name => rfl

theorem Front.frame_created (hw : loop.WellFormed outsideOps) (hfront : Front loop env front ops) {c : Created} :
    (runAll ops (w, X)).2 (.created c) = X (.created c) := by
  refine runAll_frame fun op hop hmem => ?_
  obtain ⟨id, hid⟩ := hw.before_results op (hfront.sublist.subset hop) _ hmem
  cases hid

theorem nodup_created {f : Nat → Created} (hf : Function.Injective f) (n : Nat) :
    ((range n).map fun i => Value.created (f i)).Nodup := by
  refine nodup_range.map fun i j hij => ?_
  exact hf (Value.created.inj hij)

/-- The results of the operation that evaluates the condition where the other condition was true. -/
def evaluatedResults (loop : WhileOp W D) : List Value :=
  (List.range loop.condArgs.length).map fun i => .created (.evaluated i)

section

variable (h : Entered loop front X lookThrough carried passed flag iv bound)

include h

theorem Entered.evaluated_of_bind (hfront : Front loop env front ops) {ps : List (Val D)} {n : Val D}
    (hlen : ps.length = loop.condArgs.length) :
    Evaluated loop env (X.bind (evaluatedResults loop ++ [.created .nextLookThrough]) (ps ++ [n]))
      (evaluatedResults loop) [.created .nextLookThrough] ps [n] iv bound := by
  have hmem : ∀ {v}, v ∈ evaluatedResults loop ++ [.created .nextLookThrough] →
      (∃ i, v = Value.created (.evaluated i)) ∨ v = Value.created .nextLookThrough := by
    intro v hv
    rcases mem_append.mp hv with hv | hv
    · obtain ⟨i, -, rfl⟩ := mem_map.mp hv
      exact .inl ⟨i, rfl⟩
    · exact .inr (mem_singleton.mp hv)
  have hnodup : (evaluatedResults loop ++ [Value.created .nextLookThrough]).Nodup := by
    rw [nodup_append]
    refine ⟨nodup_created (fun _ _ => Created.evaluated.inj) _, nodup_singleton _, ?_⟩
    rintro a ha b hb rfl
    obtain ⟨i, -, hi⟩ := mem_map.mp ha
    rw [mem_singleton.mp hb] at hi
    cases hi
  have hmap : (evaluatedResults loop ++ [Value.created .nextLookThrough]).map
      (X.bind (evaluatedResults loop ++ [.created .nextLookThrough]) (ps ++ [n])) = ps ++ [n] :=
    Env.map_bind hnodup (by simp [evaluatedResults, hlen])
  rw [map_append] at hmap
  obtain ⟨hps, hns⟩ := append_inj hmap (by simp [evaluatedResults, hlen])
  have hframe : ∀ {v}, (∀ i, v ≠ .created (.evaluated i)) → v ≠ .created .nextLookThrough →
      X.bind (evaluatedResults loop ++ [.created .nextLookThrough]) (ps ++ [n]) v = X v := by
    intro v hevaluated hnext
    refine Env.bind_of_not_mem fun hv => ?_
    rcases hmem hv with ⟨i, hi⟩ | hi
    · exact hevaluated i hi
    · exact hnext hi
  refine ⟨fun v hv => ?_, hps, hns, ?_, ?_⟩
  · rw [hframe (fun i => hv.2.2 _) (hv.2.2 _), h.seenAfter hfront hv]
  · rw [hframe (fun _ => by simp) (by simp), h.inductionVar]
  · rw [hframe (fun _ => by simp) (by simp), h.upperBound]

theorem evaluation_spec (hw : loop.WellFormed outsideOps) (hfront : Front loop env front ops)
    (hflag : lookThrough.isSome = true → flag.isTrue = true) (hlook : ∀ l, lookThrough = some l → loop.SeenBefore l) :
    let new := evaluation { loop with beforeOps := ops } lookThrough
    (runAll new.1 (w, X)).1 = (loop.evaluate env (w, carried)).1 ∧
      Evaluated loop env (runAll new.1 (w, X)).2 new.2.1 new.2.2 (loop.condArgs.map (loop.evaluate env (w, carried)).2)
        (lookThrough.toList.map (loop.evaluate env (w, carried)).2) iv bound := by
  obtain ⟨hworld, hagree⟩ := h.similar (w := w) hw hfront
  have hcondArgs : ∀ v ∈ loop.condArgs, IsSource v := fun v hv =>
    (hw.before_uses v (mem_append_right _ (mem_cons_of_mem _ hv))).2.2
  cases lookThrough with
  | none =>
    refine ⟨hworld, fun v hv => ?_, hagree.map hcondArgs, rfl, ?_, ?_⟩
    · exact (hagree v hv.2.2).trans (evaluate_seenAfter hv)
    · exact (Front.frame_created hw hfront).trans h.inductionVar
    · exact (Front.frame_created hw hfront).trans h.upperBound
  | some l =>
    have htrue : (X (.created .lookThrough)).isTrue = true := by
      rw [h.flag rfl]
      exact hflag rfl
    have hyields : (loop.condArgs ++ [l]).map (runAll ops (w, X)).2 =
        loop.condArgs.map (loop.evaluate env (w, carried)).2 ++ [(loop.evaluate env (w, carried)).2 l] := by
      rw [← map_singleton, ← map_append]
      refine hagree.map fun v hv => ?_
      rcases mem_append.mp hv with hv | hv
      · exact hcondArgs v hv
      · exact mem_singleton.mp hv ▸ (hlook l rfl).2.2
    have hrun : runAll (evaluation { loop with beforeOps := ops } (some l)).1 (w, X) = ((runAll ops (w, X)).1,
        X.bind (evaluatedResults loop ++ [.created .nextLookThrough]) ((loop.condArgs ++ [l]).map (runAll ops (w, X)).2)) := by
      change Op.run (.ifOp ..) (w, X) = _
      rw [Op.run, if_pos htrue]
      rfl
    dsimp only
    rw [hrun, hyields]
    exact ⟨hworld, h.evaluated_of_bind hfront (length_map _)⟩

end

theorem evaluation_skipped {l : Value} (h : Entered loop front X (some l) carried passed flag iv bound)
    (hfront : Front loop env front ops) (hflag : flag.isTrue = false) :
    let new := evaluation { loop with beforeOps := ops } (some l)
    (runAll new.1 (w, X)).1 = w ∧
      Evaluated loop env (runAll new.1 (w, X)).2 new.2.1 new.2.2 passed [.bool false] iv bound := by
  have hfalse : ¬(X (.created .lookThrough)).isTrue = true := by
    rw [h.flag rfl, hflag]
    exact Bool.false_ne_true
  have hlen : passed.length = loop.condArgs.length := by
    rw [← h.slots, length_map, slots, length_map, length_range]
  have hslots : (slots loop).map (update X (.created .constFalse) (.bool false)) = passed := by
    rw [← h.slots]
    refine map_congr_left fun v hv => update_of_ne ?_ ..
    obtain ⟨i, -, rfl⟩ := mem_map.mp hv
    simp
  have hrun : runAll (evaluation { loop with beforeOps := ops } (some l)).1 (w, X) =
      (w, X.bind (evaluatedResults loop ++ [.created .nextLookThrough]) (passed ++ [.bool false])) := by
    change Op.run (.ifOp ..) (w, X) = _
    rw [Op.run, if_neg hfalse]
    refine Prod.ext rfl (congrArg (X.bind _) ?_)
    change (slots loop ++ [Value.created .constFalse]).map (update X (.created .constFalse) (.bool false)) = _
    rw [map_append, hslots, map_singleton, update_self]
  dsimp only
  rw [hrun]
  exact ⟨rfl, h.evaluated_of_bind hfront hlen⟩

/-! ### The region `after` -/

/-- A value that nothing after the evaluation of the condition defines. -/
structure Kept (loop : WhileOp W D) (v : Value) : Prop where
  not_arg : ∀ i, v ≠ .arg .after i
  not_result : ∀ op ∈ loop.afterOps, v ∉ op.results
  not_inBounds : v ≠ .created .inBounds
  not_cond : v ≠ .created .cond
  not_carried : ∀ i, v ≠ .created (.carried i)

theorem kept_of_mem (hw : loop.WellFormed outsideOps)
    (hv : v ∈ (evaluation { loop with beforeOps := ops } lookThrough).2.1 ++
      (evaluation { loop with beforeOps := ops } lookThrough).2.2) : Kept loop v := by
  have hres : ∀ {c : Created}, ∀ op ∈ loop.afterOps, Value.created c ∉ op.results := by
    intro c op hop hmem
    obtain ⟨id, hid⟩ := hw.after_results op hop _ hmem
    cases hid
  cases lookThrough with
  | none =>
    have hmem : v ∈ loop.condArgs := by simpa [evaluation] using hv
    have hseen := hw.before_uses v (mem_append_right _ (mem_cons_of_mem _ hmem))
    exact ⟨hseen.1, hseen.2.1, hseen.2.2 _, hseen.2.2 _, fun i => hseen.2.2 _⟩
  | some l =>
    rcases mem_append.mp hv with hv | hv
    · obtain ⟨i, -, rfl⟩ := mem_map.mp hv
      exact ⟨by simp, hres, by simp, by simp, by simp⟩
    · obtain rfl := mem_singleton.mp hv
      exact ⟨by simp, hres, by simp, by simp, by simp⟩

variable {Y : Env D} {args next : List Value} {ps ns : List (Val D)} {negativeStep guarded : Bool} {boundType : IntType}

theorem nodup_afterArgs (loop : WhileOp W D) : (afterArgs loop).Nodup :=
  nodup_range.map fun _ _ hij => (Value.arg.inj hij).2

theorem Evaluated.similar (h : Evaluated loop env Y args next ps ns iv bound) (hlen : ps.length = loop.condArgs.length)
    (hw : loop.WellFormed outsideOps) {Z : Env D} (hZ : ∀ v, loop.SeenAfter v → Z v = Y.bind (afterArgs loop) ps v) :
    Similar loop.SeenAfter (loop.body env (w, ps)) (runAll loop.afterOps (w, Z)) := by
  refine runAll_similar _ (fun v hv => hw.after_uses v (mem_append_left _ hv)) ⟨rfl, fun v hv => ?_⟩
  refine (hZ v hv).trans ?_
  change _ = env.bindArgs .after ps v
  by_cases hmem : v ∈ afterArgs loop
  · obtain ⟨i, hi, rfl⟩ := mem_map.mp hmem
    have hlt : i < ps.length := hlen ▸ mem_range.mp hi
    rw [Env.bindArgs_arg, getElem?_eq_getElem hlt, Option.getD_some]
    refine Env.bind_getElem (nodup_afterArgs loop) (i := i) ?_ (getElem?_eq_getElem hlt)
    rw [afterArgs, getElem?_map, getElem?_range (mem_range.mp hi), Option.map_some]
  · rw [Env.bind_of_not_mem hmem, h.source v hv]
    cases v with
    | arg owner number =>
      by_cases howner : owner = .after
      · subst howner
        have hge : ps[number]? = none := by
          refine getElem?_eq_none (not_lt.mp fun hlt => hmem ?_)
          exact mem_map.mpr ⟨number, mem_range.mpr (hlen ▸ hlt), rfl⟩
        rw [Env.bindArgs_arg, hge, Option.getD_none]
      · exact (if_neg howner).symm
    | result id | created name => rfl

/-- Whether the guard lets the region `after` be run. -/
def guardValue (negativeStep : Bool) (iv bound : Int) (ns : List (Val D)) : Bool :=
  (if negativeStep then bound < iv else iv < bound) && ns.all Val.isTrue

theorem eval_guard {Z : Env D} (hiv : Z (.created .inductionVar) = .int iv)
    (hub : Z (.created .upperBound) = .int bound)
    (hns : (if lookThrough.isSome then [Z (.created .nextLookThrough)] else []) = ns) :
    let new := guard (W := W) (D := D) lookThrough negativeStep boundType
    (runAll new.1 (w, Z)).1 = w ∧ ((runAll new.1 (w, Z)).2 new.2).isTrue = guardValue negativeStep iv bound ns ∧
      ∀ v, v ≠ .created .inBounds → v ≠ .created .cond → (runAll new.1 (w, Z)).2 v = Z v := by
  have hcompare : (Prim.cmpI boundType (if negativeStep then .sgt else .slt)).eval
      ([.created .inductionVar, .created .upperBound].map Z) =
      .bool (if negativeStep then bound < iv else iv < bound) := by
    rw [map_cons, map_singleton, hiv, hub]
    cases negativeStep with
    | true | false => rfl
  subst hns
  cases lookThrough with
  | none =>
    have hrun : runAll (guard (W := W) none negativeStep boundType).1 (w, Z) =
        (w, update Z (.created .inBounds) (.bool (if negativeStep then bound < iv else iv < bound))) := by
      rw [← hcompare]
      rfl
    dsimp only
    rw [hrun]
    refine ⟨rfl, ?_, fun v hbounds _ => update_of_ne hbounds ..⟩
    have hcond : (guard (W := W) (D := D) none negativeStep boundType).2 = .created .inBounds := rfl
    rw [hcond]
    dsimp only
    rw [update_self]
    exact (Bool.and_true _).symm
  | some l =>
    have hrun : runAll (guard (W := W) (some l) negativeStep boundType).1 (w, Z) = (w, update
          (update Z (.created .inBounds) (.bool (if negativeStep then bound < iv else iv < bound)))
          (.created .cond) (Prim.eval .andI [.bool (if negativeStep then bound < iv else iv < bound),
            Z (.created .nextLookThrough)])) := by
      rw [← hcompare]
      rfl
    dsimp only
    rw [hrun]
    refine ⟨rfl, ?_, fun v hbounds hcond => (update_of_ne hcond ..).trans (update_of_ne hbounds ..)⟩
    have hcond : (guard (W := W) (D := D) (some l) negativeStep boundType).2 = .created .cond := rfl
    rw [hcond]
    dsimp only
    rw [update_self, guardValue]
    cases Z (.created .nextLookThrough) with
    | bool b | _ => simp [Prim.eval, Val.isTrue]

theorem execution_guarded (loop : WhileOp W D) (ops : List (Op W D)) (lookThrough : Option Value) (negativeStep : Bool)
    (boundType : IntType) (args : List Value) :
    execution { loop with beforeOps := ops } lookThrough negativeStep true boundType args =
      ((.other (afterArgs loop) args id :: (guard lookThrough negativeStep boundType).1) ++
        [.ifOp (carriedResults loop) (guard (W := W) (D := D) lookThrough negativeStep boundType).2 loop.afterOps
          loop.yields ((poisons loop).map fun p => .prim (.constant false .poison) p []) (poisons loop)],
        carriedResults loop) := rfl

theorem frame_afterArgs (hv : ∀ i, v ≠ .arg .after i) : Y.bind (afterArgs loop) ps v = Y v := by
  refine Env.bind_of_not_mem fun hmem => ?_
  obtain ⟨i, -, rfl⟩ := mem_map.mp hmem
  exact hv i rfl

theorem guard_spec (negativeStep : Bool) (boundType : IntType) (h : Evaluated loop env Y args next ps ns iv bound)
    (hns : (if lookThrough.isSome then [Y (.created .nextLookThrough)] else []) = ns) :
    let new := guard (W := W) (D := D) lookThrough negativeStep boundType
    let s := runAll (.other (afterArgs loop) args id :: new.1) (w, Y)
    s.1 = w ∧ (s.2 new.2).isTrue = guardValue negativeStep iv bound ns ∧
      ∀ v, v ≠ .created .inBounds → v ≠ .created .cond → s.2 v = Y.bind (afterArgs loop) ps v := by
  have hreplaced : runAll (.other (afterArgs loop) args id :: (guard (W := W) (D := D) lookThrough negativeStep boundType).1)
      (w, Y) = runAll (guard lookThrough negativeStep boundType).1 (w, Y.bind (afterArgs loop) ps) := by
    rw [← h.passed]
    rfl
  dsimp only
  rw [hreplaced]
  refine eval_guard ?_ ?_ ?_
  · rw [frame_afterArgs (by simp), h.inductionVar]
  · rw [frame_afterArgs (by simp), h.upperBound]
  · rw [frame_afterArgs (by simp), hns]

section

variable (ops : List (Op W D)) (boundType : IntType) (h : Evaluated loop env Y args next ps ns iv bound)

include h

theorem execution_spec (hlen : ps.length = loop.condArgs.length) (hw : loop.WellFormed outsideOps)
    (hns : (if lookThrough.isSome then [Y (.created .nextLookThrough)] else []) = ns)
    (hguard : guarded = true → guardValue negativeStep iv bound ns = true) :
    let new := execution { loop with beforeOps := ops } lookThrough negativeStep guarded boundType args
    (runAll new.1 (w, Y)).1 = (loop.body env (w, ps)).1 ∧
      new.2.map (runAll new.1 (w, Y)).2 = loop.yields.map (loop.body env (w, ps)).2 ∧
      ∀ v, Kept loop v → (runAll new.1 (w, Y)).2 v = Y v := by
  have hyields : ∀ v ∈ loop.yields, loop.SeenAfter v := fun v hv => hw.after_uses v (mem_append_right _ hv)
  cases guarded with
  | false =>
    obtain ⟨hworld, hagree⟩ := h.similar (w := w) hlen hw (Z := Y.bind (afterArgs loop) ps) fun _ _ => rfl
    have hrun : runAll (execution { loop with beforeOps := ops } lookThrough negativeStep false boundType args).1 (w, Y) =
        runAll loop.afterOps (w, Y.bind (afterArgs loop) ps) := by
      rw [← h.passed]
      rfl
    dsimp only
    rw [hrun]
    refine ⟨hworld, hagree.map hyields, fun v hv => ?_⟩
    rw [runAll_frame hv.not_result, frame_afterArgs hv.not_arg]
  | true =>
    obtain ⟨hsame, hcond, hframe⟩ := guard_spec (w := w) negativeStep boundType h hns
    generalize hs : runAll (.other (afterArgs loop) args id :: (guard lookThrough negativeStep boundType).1) (w, Y) = s
      at hsame hcond hframe
    obtain ⟨w', Z⟩ := s
    obtain rfl : w' = w := hsame
    obtain ⟨hworld, hagree⟩ := h.similar (w := w') hlen hw (Z := Z) fun v hv => hframe v (hv.2.2 _) (hv.2.2 _)
    have hrun : runAll (execution { loop with beforeOps := ops } lookThrough negativeStep true boundType args).1 (w', Y) =
        ((runAll loop.afterOps (w', Z)).1,
          Z.bind (carriedResults loop) (loop.yields.map (runAll loop.afterOps (w', Z)).2)) := by
      rw [execution_guarded, runAll_append, hs]
      exact if_pos (hcond.trans (hguard rfl))
    dsimp only
    rw [hrun]
    refine ⟨hworld, ?_, fun v hv => ?_⟩
    · rw [← hagree.map hyields]
      refine Env.map_bind (nodup_created (fun _ _ => Created.carried.inj) _) ?_
      rw [length_map, hw.yields_length, carriedResults, length_map, length_range]
    · have hcarried : v ∉ carriedResults loop := by
        intro hmem
        obtain ⟨i, -, rfl⟩ := mem_map.mp hmem
        exact hv.not_carried i rfl
      exact (Env.bind_of_not_mem hcarried).trans
        ((hframe v hv.not_inBounds hv.not_cond).trans (frame_afterArgs hv.not_arg))

theorem execution_skipped (hns : (if lookThrough.isSome then [Y (.created .nextLookThrough)] else []) = ns)
    (hguard : guardValue negativeStep iv bound ns = false) :
    let new := execution { loop with beforeOps := ops } lookThrough negativeStep true boundType args
    (runAll new.1 (w, Y)).1 = w ∧ (new.2.map (runAll new.1 (w, Y)).2).length = loop.inits.length ∧
      ∀ v, Kept loop v → (runAll new.1 (w, Y)).2 v = Y v := by
  obtain ⟨hsame, hcond, hframe⟩ := guard_spec (w := w) negativeStep boundType h hns
  generalize hs : runAll (.other (afterArgs loop) args id :: (guard lookThrough negativeStep boundType).1) (w, Y) = s
    at hsame hcond hframe
  obtain ⟨w', Z⟩ := s
  obtain rfl : w' = w := hsame
  have hfalse : ¬(Z (guard (W := W) (D := D) lookThrough negativeStep boundType).2).isTrue = true := by
    rw [hcond, hguard]
    exact Bool.false_ne_true
  have hpure : Op.allPure ((poisons loop).map fun p => Op.prim (W := W) (D := D) (.constant false .poison) p []) = true := by
    generalize poisons loop = vs
    induction vs with
    | nil => rfl
    | cons v vs ih => exact ih
  have hrun : ∃ Z', runAll (execution { loop with beforeOps := ops } lookThrough negativeStep true boundType args).1 (w', Y) =
      (w', Z.bind (carriedResults loop) ((poisons loop).map Z')) := by
    refine ⟨(runAll ((poisons loop).map fun p => Op.prim (W := W) (.constant false .poison) p []) (w', Z)).2, ?_⟩
    rw [execution_guarded, runAll_append, hs]
    refine (if_neg hfalse).trans ?_
    exact Prod.ext (runAll_fst_of_allPure _ (w', Z) hpure) rfl
  obtain ⟨Z', hrun⟩ := hrun
  dsimp only
  rw [hrun]
  refine ⟨rfl, ?_, fun v hv => ?_⟩
  · rw [length_map]
    exact (length_map _).trans length_range
  · have hcarried : v ∉ carriedResults loop := by
      intro hmem
      obtain ⟨i, -, rfl⟩ := mem_map.mp hmem
      exact hv.not_carried i rfl
    exact (Env.bind_of_not_mem hcarried).trans
      ((hframe v hv.not_inBounds hv.not_cond).trans (frame_afterArgs hv.not_arg))

end

end MoveWhileToFor

end EnzymeJax.Scf
