import EnzymeJax.HLOOpt.OverlapTests
import EnzymeJax.WhileLoop.CarriedLoads

/-!
# Slices of loop arguments

A slice of an argument of the body is taken from the operand of the loop instead, if the next value of the argument
is made of it by updates that the slice may not read.
-/

namespace EnzymeJax.WhileLoop

open Tensor Straightline OverlapTests Option
open List hiding allSome

namespace SliceOfArgument

variable {α V : Type} [DecidableEq V]

section

variable (w : WhileOp α V) (typeOf : V → ValueType) (indexType : V → IntType)

def startIndex (v : V) : StartIndex :=
  match w.matchConstant v with
  | some n => .constant (indexType v) n
  | none => .runtime

/-- The updates that make a value from the argument, with their start indices, if the slice may read none. -/
def skippedUpdates (dims : List SliceDim) (arg : V) : Nat → V → Option (List (V × List V))
  | 0, _ => none
  | fuel + 1, operand =>
    if operand = arg then some []
    else match w.loop.bodyOps.find? fun i => i.result = operand with
      | some ⟨_, .dynamicUpdateSlice, operand :: update :: startIndices⟩ =>
        if mayReadMemoryWrittenTo dims (startIndices.map (startIndex w indexType)) (typeOf update).shape then none
        else (skippedUpdates dims arg fuel operand).map ((update, startIndices) :: ·)
      | _ => none

/-- The carried value that is sliced, and the updates of it. -/
def slicedArgument (slice : Instr (Op α) V) : Option (Carried V × List SliceDim × List (V × List V)) :=
  match slice with
  | ⟨_, .slice dims, [operand]⟩ => do
    let c ← w.loop.carried.find? fun c => c.bodyArg = operand
    let updates ← skippedUpdates w typeOf indexType dims c.bodyArg (w.loop.bodyOps.length + 1) c.yield
    return (c, dims, updates)
  | _ => none

def HoistSlice (slice : Instr (Op α) V) : Option (Program (Op α) V) :=
  (slicedArgument w typeOf indexType slice).map fun (c, _, _) =>
    ⟨[], { w.loop with bodyOps := w.loop.bodyOps.map fun i =>
      if i.result = slice.result then { i with operands := [c.operand] } else i }, []⟩

/-- The test is right about the updates between the argument and its next value. -/
def UpdatesApart (slice : Instr (Op α) V) : Prop :=
  ∀ c dims updates, slicedArgument w typeOf indexType slice = some (c, dims, updates) → ∀ u ∈ updates,
    InRange (typeOf c.operand).shape (typeOf u.1).shape (u.2.map (startIndex w indexType)) ∨
      Apart dims (typeOf c.operand).shape (typeOf u.1).shape (u.2.map (startIndex w indexType))

def ConstantsTyped : Prop := ∀ v n, w.matchConstant v = some n → (indexType v).wrap n = n

end

/-! ### The values that are sliced -/

/-- The elements that are sliced are the same. -/
structure SameSlice (dims : List SliceDim) (x y : Val α) : Prop where
  shape_eq : x.shape = y.shape
  read_eq : ∀ c : Nat → Nat, (∀ d < dims.length, c d < (sliceDim dims d).size) →
    (x.tensor.read fun d => (sliceDim dims d).source (c d)) = y.tensor.read fun d => (sliceDim dims d).source (c d)

namespace SameSlice

variable {dims : List SliceDim} {x y z : Val α}

theorem refl (x : Val α) : SameSlice dims x x := ⟨rfl, fun _ _ => rfl⟩

theorem symm (h : SameSlice dims x y) : SameSlice dims y x := ⟨h.shape_eq.symm, fun c hc => (h.read_eq c hc).symm⟩

theorem trans (h : SameSlice dims x y) (h' : SameSlice dims y z) : SameSlice dims x z :=
  ⟨h.shape_eq.trans h'.shape_eq, fun c hc => (h.read_eq c hc).trans (h'.read_eq c hc)⟩

theorem eval_eq (h : SameSlice dims x y) : (Op.slice dims).eval [x] = (Op.slice dims).eval [y] := by
  have hslice : ∀ {x y z : Val α}, SameSlice dims x y → (Op.slice dims).eval [x] = some z →
      (Op.slice dims).eval [y] = some z := by
    intro x y z h hz
    obtain ⟨t, ht, hsame⟩ := Tensor.Value.lift_eq_some.mp hz
    obtain ⟨hlen, hshape, hok, hread⟩ := read_slice ht
    have hxy : x.tensor.shape = y.tensor.shape := h.shape_eq
    rw [hxy] at hlen hok
    obtain ⟨t', ht'⟩ := exists_slice hlen hok
    obtain ⟨-, hshape', -, hread'⟩ := read_slice ht'
    refine Tensor.Value.lift_eq_some.mpr ⟨t', ht', Same.trans (same_of_read (hshape'.trans hshape.symm) fun c hc => ?_) hsame⟩
    rw [hread' c hc, hread c (by rwa [hshape, ← hshape'])]
    refine (h.read_eq c fun d hd => ?_).symm
    rw [← coord_slice ht' hd]
    exact hc d (by rwa [length_slice ht'])
  exact ext fun z => ⟨hslice h, hslice h.symm⟩

end SameSlice

section

variable {w : WhileOp α V} {typeOf : V → ValueType} {indexType : V → IntType} {env e σ : V → Val α} {arg v : V}
  {dims : List SliceDim} {fuel k : Nat} {updates : List (V × List V)} {c : Carried V} {slice : Instr (Op α) V}

theorem haveValues {starts : List V} {ss : List Int} (hss : allSome ((starts.map e).map toInt) = some ss)
    (htyped : ConstantsTyped w indexType) (hconst : ∀ v n, w.matchConstant v = some n → e v = ofInt n) :
    HaveValues (starts.map (startIndex w indexType)) ss := by
  have hlen := congrArg length (allSome_eq_some_iff.mp hss)
  rw [length_map, length_map, length_map] at hlen
  refine ⟨by rw [length_map, hlen], fun d hd => ?_⟩
  rw [length_map] at hd
  have hstart := CarriedLoads.toInt_start hss (getElem?_eq_getElem hd)
  rw [startAt, getD_eq_getElem _ _ (by rwa [length_map]), getElem_map, startIndex]
  split
  · rename_i n hn
    rw [hconst _ _ hn, toInt_ofInt] at hstart
    exact ⟨(some.inj hstart).symm, htyped _ _ hn⟩
  · trivial

theorem sameSlice_of_skipped {shape : List Nat} (htyped : ConstantsTyped w indexType)
    (hconst : ∀ v n, w.matchConstant v = some n → e v = ofInt n)
    (heval : ∀ i ∈ w.loop.bodyOps, i.op.eval (i.operands.map e) = some (e i.result))
    (hhas : ∀ i ∈ w.loop.bodyOps, ∀ v ∈ i.operands, (typeOf v).Has (e v)) (hshape : (e arg).shape = shape)
    (hds : dims.length = shape.length) (hok : ∀ d < dims.length, (sliceDim dims d).Ok (coord shape d))
    (hupdates : ∀ u ∈ updates, InRange shape (typeOf u.1).shape (u.2.map (startIndex w indexType)) ∨
      Apart dims shape (typeOf u.1).shape (u.2.map (startIndex w indexType)))
    (h : skippedUpdates w typeOf indexType dims arg fuel v = some updates) : SameSlice dims (e v) (e arg) := by
  induction fuel generalizing v updates with
  | zero => cases h
  | succ fuel ih =>
    rw [skippedUpdates] at h
    split at h
    · rename_i harg
      rw [harg]
      exact .refl _
    · split at h
      · rename_i r operand update startIndices hfind
        have hi := mem_of_find?_eq_some hfind
        obtain rfl : r = v := by simpa using find?_some hfind
        split at h
        · cases h
        · rename_i hmay
          obtain ⟨rest, hrest, rfl⟩ := map_eq_some_iff.mp h
          have hoperand := ih (fun u hu => hupdates u (mem_cons_of_mem _ hu)) hrest
          refine SameSlice.trans ?_ hoperand
          have hxshape : (e operand).tensor.shape = shape := hoperand.shape_eq.trans hshape
          have hz := heval _ hi
          rw [map_cons, map_cons] at hz
          obtain ⟨ss, hss, hlift⟩ := bind_eq_some_iff.mp hz
          obtain ⟨t, ht, hsame⟩ := Tensor.Value.lift_eq_some.mp hlift
          obtain ⟨hdok, htshape, -⟩ := read_dynamicUpdateSlice ht
          have hupd : (e update).tensor.shape = (typeOf update).shape := (hhas _ hi update (by simp)).1
          rw [hxshape, hupd] at hdok
          have hvals := haveValues hss htyped hconst
          have hstarts : (startIndices.map (startIndex w indexType)).length = shape.length :=
            hvals.1.symm.trans hdok.1
          have hapart : Apart dims shape (typeOf update).shape (startIndices.map (startIndex w indexType)) := by
            rcases hupdates _ mem_cons_self with hrange | hapart
            · exact apart_of_inRange hds hok (hstarts.trans hds.symm) (hdok.2.length_eq.trans hds.symm) hrange
                (Bool.eq_false_iff.mpr hmay)
            · exact hapart
          have htz : (e r).shape = t.shape := hsame.shape_eq.symm
          refine ⟨htz.trans htshape, fun c hc => ?_⟩
          rw [← read_of_apart hstarts hapart hds hok hvals hxshape hupd ht hc]
          refine (hsame.read_eq fun d hd => ?_).symm
          have hd' : d < dims.length := by rw [hds, ← hxshape, ← htshape]; exact hd
          rw [htshape, hxshape]
          exact SliceDim.source_lt (hok d hd') (hc d hd')
      · cases h

theorem slicedArgument_eq_some (h : slicedArgument w typeOf indexType slice = some (c, dims, updates)) :
    c ∈ w.loop.carried ∧ slice.op = .slice dims ∧ slice.operands = [c.bodyArg] ∧
      skippedUpdates w typeOf indexType dims c.bodyArg (w.loop.bodyOps.length + 1) c.yield = some updates := by
  unfold slicedArgument at h
  split at h
  · obtain ⟨c', hfind, hrest⟩ := bind_eq_some_iff.mp h
    obtain ⟨updates', hupdates, heq⟩ := bind_eq_some_iff.mp hrest
    obtain ⟨rfl, rfl, rfl⟩ : c' = c ∧ _ = dims ∧ updates' = updates := by simpa using heq
    have harg := find?_some hfind
    rw [decide_eq_true_eq] at harg
    exact ⟨mem_of_find?_eq_some hfind, rfl, by rw [harg], hupdates⟩
  · cases h

theorem sameSlice_entering (hw : w.WellFormed) (henv : w.Holds env) (htyped : w.WellTyped typeOf env)
    (hconstants : ConstantsTyped w indexType) (hi : slice ∈ w.loop.bodyOps)
    (h : slicedArgument w typeOf indexType slice = some (c, dims, updates))
    (hapart : UpdatesApart w typeOf indexType slice) (hσ : w.loop.entering (semantics α) env k = some σ) :
    SameSlice dims (σ c.result) (env c.operand) := by
  obtain ⟨hc, hop, hops, hskipped⟩ := slicedArgument_eq_some h
  induction k generalizing σ with
  | zero =>
    cases hσ
    rw [WhileOp.start_result hw hc]
    exact .refl _
  | succ k ih =>
    obtain ⟨σ₀, hσ₀, htrue, hnext⟩ := Loop.entering_succ_eq_some.mp hσ
    obtain ⟨e, he, -⟩ := map_eq_some_iff.mp hnext
    have harg : e c.bodyArg = σ₀ c.result := WhileOp.bodyEnv_bodyArg hw he hc
    have hshape : (e c.bodyArg).shape = (typeOf c.operand).shape := by
      rw [harg]
      exact (htyped.has_entering hw hσ₀ hc).1
    -- the slice is taken in this iteration, so it fits
    have heval := eval_of_run hw.body_ordered he hi
    rw [hops, hop] at heval
    obtain ⟨t, ht, -⟩ := Tensor.Value.lift_eq_some.mp heval
    obtain ⟨hds, -, hok, -⟩ := read_slice ht
    have hshape' : (e c.bodyArg).tensor.shape = (typeOf c.operand).shape := hshape
    rw [hshape'] at hds hok
    rw [WhileOp.next_result hw he hnext hc]
    refine SameSlice.trans (sameSlice_of_skipped hconstants (fun v n hv => WhileOp.matchConstant_spec hw henv hσ₀ he hv)
      (fun i hi => eval_of_run hw.body_ordered he hi) (fun i hi v hv =>
        htyped.has_bodyEnv hw hσ₀ (fun c hc => htyped.has_entering hw hσ₀ hc) he (hw.body_scope i hi v hv))
      hshape hds hok (hapart c dims updates h) hskipped) ?_
    rw [harg]
    exact ih hσ₀

/-- The loop with the slice of the operand has the values of the loop. -/
theorem preservesTo_of_updatesApart {p : Program (Op α) V} (hw : w.WellFormed) (henv : w.Holds env)
    (htyped : w.WellTyped typeOf env) (hconstants : ConstantsTyped w indexType) (hi : slice ∈ w.loop.bodyOps)
    (hp : HoistSlice w typeOf indexType slice = some p) (hapart : UpdatesApart w typeOf indexType slice) (N : Nat) :
    PreservesTo (semantics α) w.loop p ⟨id, id, id⟩ env env N := by
  obtain ⟨⟨c, dims, updates⟩, hsliced, rfl⟩ := map_eq_some_iff.mp hp
  obtain ⟨hc, hop, hops, -⟩ := slicedArgument_eq_some hsliced
  refine preservesTo_of_simulates (R := fun _ σ τ => τ = σ) rfl rfl ?_ ?_ ?_
  · rintro k hk σ τ e hσ rfl he
    exact ⟨e, he, rfl, fun v _ => rfl⟩
  · rintro k hk σ τ e hσ rfl htrue he
    refine ⟨e, ?_, fun v _ => rfl, fun _ => rfl⟩
    refine run_replaced (fun v => ∀ i ∈ w.loop.bodyOps, i.result ≠ v)
      (Straightline.assign w.loop.carried Carried.bodyArg (fun c => τ c.result) τ) hw.body_ordered he
      (fun i hi hkeep => hkeep i hi rfl) (fun v _ => rfl) ?_
    refine forall₂_map_right_iff.mpr (forall₂_same.mpr fun i hi' => ?_)
    by_cases hres : i.result = slice.result
    · obtain rfl := hw.body_ordered.eq_of_result_eq hi' hi hres
      rw [if_pos rfl]
      refine ⟨rfl, fun mid hkeep _ => ?_⟩
      have harg : mid c.bodyArg = τ c.result := by
        rw [hkeep _ fun i hi => hw.bodyOp_ne_bodyArg hi hc, assign_of_mem hw.nodup_bodyArg hc]
      have hout := hw.operand_outside c hc
      have hoperand : mid c.operand = env c.operand := by
        rw [hkeep _ fun i hi => WhileOp.bodyOp_ne hout hi, assign_of_ne fun c' hc' => WhileOp.bodyArg_ne hout hc',
          WhileOp.entering_outside hσ hout]
      change i.op.eval ([c.operand].map mid) = i.op.eval (i.operands.map mid)
      rw [hop, hops, map_cons, map_nil, map_cons, map_nil, harg, hoperand]
      exact ((sameSlice_entering hw henv htyped hconstants hi' hsliced hapart hσ).eval_eq).symm
    · rw [if_neg hres]
      exact ⟨rfl, fun _ _ _ => rfl⟩
  · rintro n hn σ τ hσ rfl
    exact ⟨τ, rfl, fun v => rfl⟩

end

/-- The tests are right if and only if the constant starts are in range, or clamped so that what they say is true;
and then slices of an argument are those of the operand in every run. -/
theorem overlapTests_right_iff {β : Type} [Nontrivial β] :
    (∀ ds shape update starts, Verified ds shape update starts → mayReadMemoryWrittenTo ds starts update = false →
      (ReadsOperand β ds shape update starts ↔ InRange shape update starts ∨ Apart ds shape update starts)) ∧
    (∀ ds shape update starts, Verified ds shape update starts → mustReadMemoryWrittenTo ds starts update = true →
      (ReadsUpdate β ds shape update starts ↔ InRange shape update starts ∨ Covered ds shape update starts)) ∧
    ∀ (w : WhileOp α V) (typeOf : V → ValueType) (indexType : V → IntType) (env : V → Val α), w.WellFormed →
      w.Holds env → w.WellTyped typeOf env → ConstantsTyped w indexType → ∀ slice ∈ w.loop.bodyOps, ∀ p,
        HoistSlice w typeOf indexType slice = some p → UpdatesApart w typeOf indexType slice →
          ∀ N, PreservesTo (semantics α) w.loop p ⟨id, id, id⟩ env env N :=
  ⟨fun _ _ _ _ hv h => mayRead_right_iff hv h, fun _ _ _ _ hv h => mustRead_right_iff hv h,
    fun _ _ _ _ hw henv htyped hconstants _ hi _ hp hapart N =>
      preservesTo_of_updatesApart hw henv htyped hconstants hi hp hapart N⟩

/-! ### A loop that writes one element and reads the other -/

namespace Pair

open CarriedLoads.Pair (env typeOf defs_eq holds)

/-- The slice is of the element before the one that is written. -/
def slice : Instr (Op Unit) Nat := ⟨25, .slice [⟨0, 1, 1⟩], [21]⟩

def loop : WhileOp Unit Nat where
  loop := ⟨[⟨0, 10, 20, 24, 30⟩, ⟨1, 11, 21, 26, 31⟩, ⟨5, 12, 22, 25, 32⟩], [⟨15, .compare .LT, [10, 2]⟩], 15,
    [⟨24, .add ⟨64, false⟩, [20, 3]⟩, slice, ⟨26, .dynamicUpdateSlice, [21, 4, 3]⟩]⟩
  defs v := if v = 3 then some (.constant (ofInt 1), []) else none

def indexType (_ : Nat) : IntType := ⟨64, false⟩

theorem wellFormed : loop.WellFormed := by
  refine ⟨by decide, by decide, by decide, by decide, by decide, by decide, by decide, by decide, ?_⟩
  intro v op operands hv
  obtain ⟨rfl, hv⟩ := ite_none_right_eq_some.mp hv
  cases some.inj hv
  exact ⟨by decide, forall_mem_nil _⟩

theorem wellTyped (limit : Int) : loop.WellTyped typeOf (env limit) := by
  refine ⟨fun i hi e z hops h => ⟨?_, fun hint => absurd hint Bool.false_ne_true⟩, by decide,
    fun _ _ => ⟨rfl, fun hint => absurd hint Bool.false_ne_true⟩⟩
  simp only [loop, mem_cons, not_mem_nil, or_false] at hi
  rcases hi with rfl | rfl | rfl
  · exact (arith_eq_some.mp h).2.1.trans (hops 20 (by decide)).1
  · obtain ⟨t, ht, hsame⟩ := Tensor.Value.lift_eq_some.mp h
    obtain ⟨-, hshape, -, -⟩ := read_slice ht
    exact hsame.shape_eq.symm.trans hshape
  · obtain ⟨-, -, -, hshape, -⟩ := eval_dynamicUpdateSlice.mp h
    exact hshape.trans (hops 21 (by decide)).1

theorem constantsTyped : ConstantsTyped loop indexType := by
  intro v n h
  rw [WhileOp.matchConstant, WhileOp.getDefiningOp] at h
  cases hfind : loop.loop.bodyOps.find? fun i => i.result = v with
  | some i =>
    rw [hfind] at h
    have hi := mem_of_find?_eq_some hfind
    simp only [loop, mem_cons, not_mem_nil, or_false] at hi
    rcases hi with rfl | rfl | rfl
    · cases h
    · cases h
    · cases h
  | none =>
    rw [hfind] at h
    by_cases hv : v = 3
    · subst hv
      obtain rfl : 1 = n := some.inj h
      decide
    · have hdefs : loop.defs v = none := if_neg hv
      dsimp only at h
      rw [hdefs] at h
      cases h

/-- An update at the end, of which the slices read nothing or everything, and the loop. -/
theorem overlapTests_right_iff_pair :
    ReadsOperand Bool [⟨0, 2, 1⟩] [4] [2] [.constant ⟨64, false⟩ 2] ∧
      ReadsUpdate Bool [⟨2, 4, 1⟩] [4] [2] [.constant ⟨64, false⟩ 2] ∧
        ∃ p, HoistSlice loop typeOf indexType slice = some p ∧
          PreservesTo (semantics Unit) loop.loop p ⟨id, id, id⟩ (env 2) (env 2) 2 := by
  have hrange : InRange [4] [2] [.constant ⟨64, false⟩ 2] := by
    intro d hd start hstart
    obtain rfl := Nat.lt_one_iff.mp hd
    obtain rfl : 2 = start := some.inj hstart
    decide
  obtain ⟨hmay, hmust, hloop⟩ := overlapTests_right_iff (α := Unit) (V := Nat) (β := Bool)
  refine ⟨(hmay _ _ _ _ (verified_pair (by decide) (by decide) (by decide)) (by decide)).mpr (.inl hrange),
    (hmust _ _ _ _ (verified_pair (by decide) (by decide) (by decide)) (by decide)).mpr (.inl hrange), _, rfl,
    hloop loop typeOf indexType (env 2) wellFormed (holds 2) (wellTyped 2) constantsTyped slice
      (.tail _ (.head _)) _ rfl ?_ 2⟩
  intro c dims updates hsliced u hu
  have hfound : slicedArgument loop typeOf indexType slice = some (⟨1, 11, 21, 26, 31⟩, [⟨0, 1, 1⟩], [(4, [3])]) := rfl
  obtain ⟨rfl, rfl, rfl⟩ : ⟨1, 11, 21, 26, 31⟩ = c ∧ [⟨0, 1, 1⟩] = dims ∧ [(4, [3])] = updates := by
    simpa using hfound.symm.trans hsliced
  obtain rfl := mem_singleton.mp hu
  refine .inl fun d hd start hstart => ?_
  obtain rfl := Nat.lt_one_iff.mp hd
  obtain rfl : 1 = start := some.inj hstart
  decide

end Pair

end SliceOfArgument

end EnzymeJax.WhileLoop
