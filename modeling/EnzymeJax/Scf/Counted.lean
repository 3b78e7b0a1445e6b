import EnzymeJax.Scf.Iteration
import EnzymeJax.Scf.Legality

/-!
# The new loop

The iterations of the new loop are the evaluations of the condition. After the last evaluation the values that are
passed on stay as they are, whether the loop ends or its iterations do nothing any more.
-/

namespace EnzymeJax.Scf

open List Function

variable {W D : Type} {loop : WhileOp W D} {outsideOps : List (Op W D)} {env front : Env D} {helper : WhileToForHelper}
  {lookThrough : Option Value} {newArgs : List Init} {uninitialized : Int}

namespace MoveWhileToFor

/-! ### An iteration -/

variable {carried passed flags : List (Val D)} {w : W} {k : Nat} {lb step bound : Int}

theorem entered_bodyEnv (helper : WhileToForHelper) (newArgs : List Init)
    (hcarried : carried.length = loop.inits.length) (hpassed : passed.length = loop.condArgs.length)
    (hflags : flags.length = if lookThrough.isSome then 1 else 0) :
    Entered loop front ((forOp loop helper lookThrough newArgs).bodyEnv front lb step bound k (carried ++ passed ++ flags))
      lookThrough carried passed (flags.headD .poison) (lb + k * step) bound := by
  have hiterArgs : (forOp loop helper lookThrough newArgs).iterArgs = (range loop.inits.length).map (.arg .before ·) ++
      slots loop ++ (if lookThrough.isSome then [.created .lookThrough] else []) := rfl
  have hframe : ∀ {v}, v ≠ .created .inductionVar → v ≠ .created .upperBound →
      (forOp loop helper lookThrough newArgs).bodyEnv front lb step bound k (carried ++ passed ++ flags) v =
        front.bind (forOp loop helper lookThrough newArgs).iterArgs (carried ++ passed ++ flags) v := fun hiv hub =>
    (update_of_ne hiv ..).trans (update_of_ne hub ..)
  have hslots : ∀ {v}, v ∈ slots loop → ∃ i, v = .created (.passed i) := by
    intro v hv
    obtain ⟨i, -, rfl⟩ := mem_map.mp hv
    exact ⟨i, rfl⟩
  have hargs : ∀ {v}, v ∈ (range loop.inits.length).map (Value.arg .before ·) →
      ∃ i < loop.inits.length, v = .arg .before i := by
    intro v hv
    obtain ⟨i, hi, rfl⟩ := mem_map.mp hv
    exact ⟨i, mem_range.mp hi, rfl⟩
  have hlook : ∀ {v}, v ∈ (if lookThrough.isSome then [Value.created .lookThrough] else []) →
      v = .created .lookThrough := by
    intro v hv
    split at hv
    · exact mem_singleton.mp hv
    · cases hv
  have hnodup : (forOp loop helper lookThrough newArgs).iterArgs.Nodup := by
    rw [hiterArgs, nodup_append, nodup_append]
    refine ⟨⟨nodup_range.map fun _ _ hij => (Value.arg.inj hij).2, nodup_created (fun _ _ => Created.passed.inj) _, ?_⟩,
      ?_, ?_⟩
    · intro a ha b hb
      obtain ⟨i, -, rfl⟩ := hargs ha
      obtain ⟨j, rfl⟩ := hslots hb
      simp
    · split
      · exact nodup_singleton _
      · exact nodup_nil
    · intro a ha b hb
      rw [hlook hb]
      rcases mem_append.mp ha with ha | ha
      · obtain ⟨i, -, rfl⟩ := hargs ha
        simp
      · obtain ⟨j, rfl⟩ := hslots ha
        simp
  have hlen : (carried ++ passed ++ flags).length = (forOp loop helper lookThrough newArgs).iterArgs.length := by
    rw [hiterArgs]
    simp only [length_append, length_map, length_range, slots, hcarried, hpassed, hflags]
    split
    · rfl
    · rfl
  have hmap : (forOp loop helper lookThrough newArgs).iterArgs.map
      (front.bind (forOp loop helper lookThrough newArgs).iterArgs (carried ++ passed ++ flags)) =
        carried ++ passed ++ flags := Env.map_bind hnodup hlen
  rw [hiterArgs, map_append, map_append] at hmap
  obtain ⟨hmap, hflag⟩ := append_inj hmap (by simp [slots, hcarried, hpassed])
  obtain ⟨hcarriedMap, hpassedMap⟩ := append_inj hmap (by simp [hcarried])
  rw [← hiterArgs] at hcarriedMap hpassedMap hflag
  have hnotMem : ∀ {v}, (∀ i < loop.inits.length, v ≠ .arg .before i) → IsSource v →
      v ∉ (forOp loop helper lookThrough newArgs).iterArgs := by
    intro v harg hsrc hmem
    rw [hiterArgs, mem_append, mem_append] at hmem
    rcases hmem with (hmem | hmem) | hmem
    · obtain ⟨i, hi, heq⟩ := hargs hmem
      exact harg i hi heq
    · obtain ⟨i, heq⟩ := hslots hmem
      exact hsrc _ heq
    · exact hsrc _ (hlook hmem)
  refine ⟨fun v hv => ?_, ?_, fun hsome => ?_, update_self .., ?_⟩
  · rw [hframe (hv _) (hv _)]
    cases v with
    | arg owner i =>
      by_cases howner : owner = .before
      · subst howner
        rw [Env.bindArgs_arg]
        by_cases hi : i < loop.inits.length
        · have hval := congrArg (·[i]?) hcarriedMap
          rw [getElem?_map, getElem?_map, getElem?_range hi, Option.map_some, Option.map_some] at hval
          rw [← hval, Option.getD_some]
        · rw [getElem?_eq_none (hcarried ▸ not_lt.mp hi), Option.getD_none, Env.bind_of_not_mem]
          exact hnotMem (fun j hj heq => hi ((Value.arg.inj heq).2 ▸ hj)) hv
      · rw [Env.bind_of_not_mem (hnotMem (fun j _ heq => howner (Value.arg.inj heq).1) hv)]
        exact (if_neg howner).symm
    | result id => exact Env.bind_of_not_mem (hnotMem (by simp) hv)
    | created name => exact absurd rfl (hv name)
  · refine (map_congr_left fun v hv => ?_).trans hpassedMap
    obtain ⟨i, rfl⟩ := hslots hv
    exact hframe (by simp) (by simp)
  · rw [if_pos hsome] at hflag
    rw [hframe (by simp) (by simp)]
    exact congrArg (headD · Val.poison) hflag
  · exact (update_of_ne (by simp) ..).trans (update_self ..)

theorem iteration_eq {xs : List (Val D)} :
    (forOp loop helper lookThrough newArgs).iteration front lb step bound k (w, xs) =
      let loop' := { loop with beforeOps := remainingOps loop helper }
      let new := evaluation loop' lookThrough
      let s := runAll new.1 (w, (forOp loop helper lookThrough newArgs).bodyEnv front lb step bound k xs)
      let last := execution loop' lookThrough helper.negativeStep (guarded loop helper lookThrough)
        helper.prepareFor.2.1.type new.2.1
      let e := runAll last.1 s
      (e.1, (last.2 ++ new.2.1 ++ new.2.2).map e.2) := by
  rw [ForOp.iteration]
  dsimp only
  rw [← runAll_append]
  rfl

variable {ps ns : List (Val D)} {l : Value}

theorem next_of_evaluated {Y : Env D} {args : List Value} {iv : Int}
    (h : Evaluated loop env Y args (evaluation { loop with beforeOps := remainingOps loop helper } lookThrough).2.2 ps ns
      iv bound) : (if lookThrough.isSome then [Y (.created .nextLookThrough)] else []) = ns := by
  rw [← h.next]
  cases lookThrough with
  | none | some l => rfl

theorem map_yields (hw : loop.WellFormed outsideOps) {Y Z : Env D} {ops : List (Op W D)} {carriedValues : List Value}
    {iv : Int} (h : Evaluated loop env Y (evaluation { loop with beforeOps := ops } lookThrough).2.1
      (evaluation { loop with beforeOps := ops } lookThrough).2.2 ps ns iv bound)
    (hkept : ∀ v, Kept loop v → Z v = Y v) :
    (carriedValues ++ (evaluation { loop with beforeOps := ops } lookThrough).2.1 ++
      (evaluation { loop with beforeOps := ops } lookThrough).2.2).map Z = carriedValues.map Z ++ ps ++ ns := by
  rw [map_append, map_append, ← h.passed, ← h.next]
  refine congrArg₂ _ (congrArg _ ?_) ?_
  · exact map_congr_left fun v hv => hkept v (kept_of_mem hw (mem_append_left _ hv))
  · exact map_congr_left fun v hv => hkept v (kept_of_mem hw (mem_append_right _ hv))

variable (hw : loop.WellFormed outsideOps) (hfront : Front loop env front (remainingOps loop helper))
  (hcarried : carried.length = loop.inits.length) (hpassed : passed.length = loop.condArgs.length)
  (hflags : flags.length = if lookThrough.isSome then 1 else 0)

include hw hfront hcarried hpassed hflags

theorem iteration_run (hlook : ∀ l, lookThrough = some l → loop.SeenBefore l)
    (hflag : lookThrough.isSome = true → (flags.headD .poison).isTrue = true)
    (hguard : guarded loop helper lookThrough = true → guardValue helper.negativeStep (lb + k * step) bound
      (lookThrough.toList.map (loop.evaluate env (w, carried)).2) = true) :
    (forOp loop helper lookThrough newArgs).iteration front lb step bound k (w, carried ++ passed ++ flags) =
      ((loop.next env (w, carried)).1, (loop.next env (w, carried)).2 ++ (loop.passed env (w, carried)).2 ++
        lookThrough.toList.map (loop.evaluate env (w, carried)).2) := by
  have hentered : Entered loop front _ lookThrough carried passed (flags.headD .poison) (lb + k * step) bound :=
    entered_bodyEnv helper newArgs hcarried hpassed hflags
  obtain ⟨hworld, hevaluated⟩ := evaluation_spec (w := w) hentered hw hfront hflag hlook
  have hlen : (loop.condArgs.map (loop.evaluate env (w, carried)).2).length = loop.condArgs.length := length_map _
  rw [iteration_eq]
  dsimp only
  rw [← Prod.mk.eta (p := runAll _ (w, _)), hworld]
  obtain ⟨hbody, hyields, hkept⟩ := execution_spec (remainingOps loop helper)
    helper.prepareFor.2.1.type (w := (loop.evaluate env (w, carried)).1) hevaluated hlen hw
    (next_of_evaluated hevaluated) hguard
  rw [map_yields hw hevaluated hkept, hyields, hbody]
  rfl

theorem iteration_last (newArgs : List Init) (hlook : ∀ l, lookThrough = some l → loop.SeenBefore l)
    (hflag : lookThrough.isSome = true → (flags.headD .poison).isTrue = true)
    (hguarded : guarded loop helper lookThrough = true) (hguard : guardValue helper.negativeStep (lb + k * step) bound
      (lookThrough.toList.map (loop.evaluate env (w, carried)).2) = false) :
    ∃ xs : List (Val D), xs.length = loop.inits.length ∧
      (forOp loop helper lookThrough newArgs).iteration front lb step bound k (w, carried ++ passed ++ flags) =
        ((loop.passed env (w, carried)).1, xs ++ (loop.passed env (w, carried)).2 ++
          lookThrough.toList.map (loop.evaluate env (w, carried)).2) := by
  have hentered : Entered loop front _ lookThrough carried passed (flags.headD .poison) (lb + k * step) bound :=
    entered_bodyEnv helper newArgs hcarried hpassed hflags
  obtain ⟨hworld, hevaluated⟩ := evaluation_spec (w := w) hentered hw hfront hflag hlook
  obtain ⟨hbody, hyields, hkept⟩ := execution_skipped (remainingOps loop helper)
    helper.prepareFor.2.1.type (w := (loop.evaluate env (w, carried)).1) hevaluated
    (next_of_evaluated hevaluated) hguard
  refine ⟨_, hyields, ?_⟩
  rw [iteration_eq]
  dsimp only
  rw [← Prod.mk.eta (p := runAll _ (w, _)), hworld, hguarded, map_yields hw hevaluated hkept, hbody]
  rfl

theorem iteration_idle (newArgs : List Init) (k : Nat) (lb step bound : Int) (w : W)
    (hl : lookThrough = some l) (hflag : (flags.headD .poison).isTrue = false) :
    ∃ xs : List (Val D), xs.length = loop.inits.length ∧
      (forOp loop helper lookThrough newArgs).iteration front lb step bound k (w, carried ++ passed ++ flags) =
        (w, xs ++ passed ++ [.bool false]) := by
  subst hl
  have hentered : Entered loop front _ (some l) carried passed (flags.headD .poison) (lb + k * step) bound :=
    entered_bodyEnv helper newArgs hcarried hpassed hflags
  obtain ⟨hworld, hevaluated⟩ := evaluation_skipped (w := w) hentered hfront hflag
  have hguard : guardValue helper.negativeStep (lb + k * step) bound [Val.bool (D := D) false] = false :=
    Bool.and_false _
  obtain ⟨hbody, hyields, hkept⟩ := execution_skipped (remainingOps loop helper)
    helper.prepareFor.2.1.type (w := w) hevaluated (next_of_evaluated hevaluated) hguard
  refine ⟨_, hyields, ?_⟩
  rw [iteration_eq]
  dsimp only
  have hguarded : guarded loop helper (some l) = true := rfl
  rw [← Prod.mk.eta (p := runAll _ (w, _)), hworld, hguarded, map_yields hw hevaluated hkept, hbody]

omit hw hfront hcarried hpassed hflags

/-! ### Until the last evaluation -/

def slotsAt (loop : WhileOp W D) (env front : Env D) (newArgs : List Init) (w : W) : Nat → List (Val D)
  | 0 => newArgs.map (Init.eval front)
  | k + 1 => (loop.passed env (loop.entering env w k)).2

/-- The other condition, while it is true. -/
def flagsTrue (lookThrough : Option Value) : List (Val D) := if lookThrough.isSome then [.bool true] else []

theorem map_of_flagTrue {s : W × List (Val D)} (h : loop.FlagTrue env lookThrough s) :
    lookThrough.toList.map (loop.evaluate env s).2 = flagsTrue lookThrough := by
  cases lookThrough with
  | none => rfl
  | some l => exact congrArg (fun x => [x]) (h l rfl)

theorem entering_succ (loop : WhileOp W D) (env : Env D) (w : W) (k : Nat) :
    loop.entering env w (k + 1) = loop.next env (loop.entering env w k) :=
  iterate_succ_apply' ..

theorem length_entering (hw : loop.WellFormed outsideOps) (k : Nat) :
    (loop.entering env w k).2.length = loop.inits.length := by
  cases k with
  | zero => exact length_map _
  | succ k =>
    rw [entering_succ]
    exact (length_map _).trans hw.yields_length

theorem length_slotsAt (hnewArgs : newArgs.length = loop.condArgs.length) (k : Nat) :
    (slotsAt loop env front newArgs w k).length = loop.condArgs.length := by
  cases k with
  | zero => exact (length_map _).trans hnewArgs
  | succ k => exact length_map _

theorem length_flagsTrue : (flagsTrue (D := D) lookThrough).length = if lookThrough.isSome then 1 else 0 := by
  rw [flagsTrue]
  split
  · rfl
  · rfl

theorem entering_of_continues (hw : loop.WellFormed outsideOps)
    (hfront : Front loop env front (remainingOps loop helper)) (hinits : ∀ v ∈ loop.inits, front v = env v)
    (hnewArgs : newArgs.length = loop.condArgs.length) (hlook : ∀ l, lookThrough = some l → loop.SeenBefore l) {n : Nat}
    (hflag : ∀ k < n, loop.FlagTrue env lookThrough (loop.entering env w k))
    (hguard : guarded loop helper lookThrough = true → ∀ k < n, (if helper.negativeStep then decide (bound < lb + k * step)
      else decide (lb + k * step < bound)) = true) :
    (forOp loop helper lookThrough newArgs).entering front lb step bound w n = ((loop.entering env w n).1,
      (loop.entering env w n).2 ++ slotsAt loop env front newArgs w n ++ flagsTrue lookThrough) := by
  induction n with
  | zero =>
    have hstart : (forOp loop helper lookThrough newArgs).inits = loop.inits.map .value ++ newArgs ++
        (if lookThrough.isSome then [.constTrue] else []) := rfl
    refine Prod.ext rfl ?_
    change (forOp loop helper lookThrough newArgs).inits.map (Init.eval front) = _
    rw [hstart, map_append, map_append, map_map]
    refine congrArg₂ _ (congrArg₂ _ (map_congr_left hinits) rfl) ?_
    rw [flagsTrue]
    split
    · rfl
    · rfl
  | succ k ih =>
    have hcontinue := hflag k (Nat.lt_succ_self k)
    have htrue : lookThrough.isSome = true → ((flagsTrue (D := D) lookThrough).headD .poison).isTrue = true := by
      intro hsome
      rw [flagsTrue, if_pos hsome]
      rfl
    have hguardValue : guarded loop helper lookThrough = true → guardValue helper.negativeStep (lb + k * step) bound
        (lookThrough.toList.map (loop.evaluate env (loop.entering env w k)).2) = true := by
      intro hguarded
      rw [map_of_flagTrue hcontinue, guardValue, hguard hguarded k (Nat.lt_succ_self k), flagsTrue]
      split
      · rfl
      · rfl
    rw [ForOp.entering, ih (fun j hj => hflag j (Nat.lt_succ_of_lt hj)) fun hguarded j hj =>
      hguard hguarded j (Nat.lt_succ_of_lt hj)]
    have hcarried : (loop.entering env w k).2.length = loop.inits.length := length_entering hw k
    have hslots : (slotsAt loop env front newArgs w k).length = loop.condArgs.length := length_slotsAt hnewArgs k
    rw [entering_succ, slotsAt]
    generalize loop.entering env w k = s at hcontinue hguardValue hcarried
    obtain ⟨w', carried⟩ := s
    rw [iteration_run hw hfront hcarried hslots length_flagsTrue hlook htrue hguardValue, map_of_flagTrue hcontinue]

/-! ### After the last evaluation -/

/-- The world and the results of the new loop, when the last evaluation has passed them on. -/
def Done (loop : WhileOp W D) (env : Env D) (lookThrough : Option Value) (s : W × List (Val D)) (flags : List (Val D))
    (s' : W × List (Val D)) : Prop :=
  s'.1 = (loop.passed env s).1 ∧ (flags.length = if lookThrough.isSome then 1 else 0) ∧
    ∃ xs : List (Val D), xs.length = loop.inits.length ∧ s'.2 = xs ++ (loop.passed env s).2 ++ flags

variable {s : W × List (Val D)}

theorem length_flags : (lookThrough.toList.map (loop.evaluate env s).2).length =
    if lookThrough.isSome then 1 else 0 := by
  cases lookThrough with
  | none | some l => rfl

section

variable (hw : loop.WellFormed outsideOps) (hfront : Front loop env front (remainingOps loop helper))

include hw hfront

theorem done_of_last (hcarried : s.2.length = loop.inits.length) (hpassed : passed.length = loop.condArgs.length)
    (hlook : ∀ l, lookThrough = some l → loop.SeenBefore l)
    (hguard : guarded loop helper lookThrough = true → guardValue helper.negativeStep (lb + k * step) bound
      (lookThrough.toList.map (loop.evaluate env s).2) = false)
    (hpure : guarded loop helper lookThrough = false → Op.allPure loop.afterOps = true) :
    Done loop env lookThrough s (lookThrough.toList.map (loop.evaluate env s).2)
      ((forOp loop helper lookThrough newArgs).iteration front lb step bound k
        (s.1, s.2 ++ passed ++ flagsTrue lookThrough)) := by
  have htrue : lookThrough.isSome = true → ((flagsTrue (D := D) lookThrough).headD .poison).isTrue = true := by
    intro hsome
    rw [flagsTrue, if_pos hsome]
    rfl
  obtain ⟨w, carried⟩ := s
  cases hguarded : guarded loop helper lookThrough with
  | true =>
    obtain ⟨xs, hxs, hlast⟩ := iteration_last hw hfront hcarried hpassed length_flagsTrue newArgs hlook htrue hguarded
      (hguard hguarded)
    rw [hlast]
    exact ⟨rfl, length_flags, xs, hxs, rfl⟩
  | false =>
    rw [iteration_run hw hfront hcarried hpassed length_flagsTrue hlook htrue fun h => by rw [hguarded] at h; cases h]
    refine ⟨?_, length_flags, _, ?_, rfl⟩
    · exact runAll_fst_of_allPure loop.afterOps _ (hpure hguarded)
    · exact (length_map _).trans hw.yields_length

theorem done_of_idle (hl : lookThrough = some l) (hflag : (flags.headD .poison).isTrue = false)
    {s' : W × List (Val D)} (hdone : Done loop env lookThrough s flags s') : Done loop env lookThrough s [.bool false]
      ((forOp loop helper lookThrough newArgs).iteration front lb step bound k s') := by
  obtain ⟨w', xs'⟩ := s'
  obtain ⟨rfl, hlen, xs, hxs, rfl⟩ := hdone
  have hpassed : (loop.passed env s).2.length = loop.condArgs.length := length_map _
  obtain ⟨ys, hys, hidle⟩ := iteration_idle hw hfront hxs hpassed hlen newArgs k lb step bound
    (loop.passed env s).1 hl hflag
  rw [hidle]
  exact ⟨rfl, by rw [hl]; rfl, ys, hys, rfl⟩

theorem done_of_le (hl : lookThrough = some l) {n m : Nat} (hflag : (flags.headD .poison).isTrue = false)
    (hfirst : Done loop env lookThrough s flags
      ((forOp loop helper lookThrough newArgs).entering front lb step bound w n)) (hm : n ≤ m) :
    ∃ flags, (flags.headD .poison).isTrue = false ∧
      Done loop env lookThrough s flags ((forOp loop helper lookThrough newArgs).entering front lb step bound w m) := by
  induction m, hm using Nat.le_induction with
  | base => exact ⟨flags, hflag, hfirst⟩
  | succ m hm ih =>
    obtain ⟨flags', hflag', hdone⟩ := ih
    exact ⟨[.bool false], rfl, done_of_idle hw hfront hl hflag' hdone⟩

end

end MoveWhileToFor

end EnzymeJax.Scf
