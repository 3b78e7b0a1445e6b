import EnzymeJax.Library.Gather
import EnzymeJax.WhileLoop.Typing

/-!
# Loads of carried values

`RemoveLoopCarriedDependenciesFromWhileLoadOperations` takes slices of a carried value, which is updated where it is
read, from the operand of the loop instead. One dimension in which the slice is one wide starts where the counter
says, so iterations are expected to be at different places. With a start that comes back or is clamped they are
not.
-/

namespace EnzymeJax.WhileLoop

open Tensor Straightline Option
open List hiding allSome

variable {α V : Type} [DecidableEq V]

namespace CarriedLoads

/-- What is recorded of the updates of a dimension. -/
structure Recorded (V : Type) where
  startIndex : V
  sliceSize : Nat
  fullUpdate : Bool

section

variable (w : WhileOp α V) (typeOf : V → ValueType)

def isConstantAcrossIterations (v : V) : Bool :=
  w.definedOutside v || w.loop.carried.any fun c => c.bodyArg = v && c.yield = v

def fullDimUpdated (operand start : V) (dim : Nat) : Bool :=
  let operandTy := typeOf operand
  -- the type of the operand once more
  let updateTy := typeOf operand
  w.matchConstant start = some 0 && coord operandTy.shape dim = coord updateTy.shape dim

/-- What one update says of the dimensions. -/
def updateInfo (operand update : V) (startIndices : List V) : List (Recorded V) :=
  startIndices.mapIdx fun i start => ⟨start, coord (typeOf update).shape i, fullDimUpdated w typeOf operand start i⟩

/-- What is known of a dimension, and an update before. -/
def Recorded.merge (old new : Recorded V) : Option (Recorded V) :=
  if old.fullUpdate then some old
  else if new.fullUpdate then some new
  else if old.startIndex = new.startIndex then some ⟨old.startIndex, max new.sliceSize old.sliceSize, false⟩
  else none

/-- What the updates seen so far and one before them say. The first one seen is the last one made. -/
def record (recorded : Option (List (Recorded V))) (new : List (Recorded V)) : Option (List (Recorded V)) :=
  match recorded with
  | none => some new
  | some old => allSome (List.zipWith Recorded.merge old new)

/-- Along the updates that make a value from the argument. -/
def extractDynamicUpdateSliceUpdate (blockArg : V) : Nat → V → Option (List (Recorded V)) → Option (List (Recorded V))
  | 0, _, _ => none
  | fuel + 1, v, recorded =>
    match w.loop.bodyOps.find? fun i => i.result = v with
    | some ⟨_, .dynamicUpdateSlice, operand :: update :: startIndices⟩ =>
      (record recorded (updateInfo w typeOf operand update startIndices)).bind fun recorded =>
        if operand = blockArg then some recorded
        else extractDynamicUpdateSliceUpdate blockArg fuel operand (some recorded)
    | _ => none

inductive DusInfoCollect (V : Type)
  | found (info : List (Recorded V))
  | notSearched
  | invalid

/-- The updates of a carried value, and what is left of them for the next slice. -/
def DusInfoCollect.load (c : Carried V) : DusInfoCollect V → Option (List (Recorded V)) × DusInfoCollect V
  -- they are moved from
  | found info => (some info, found [])
  | invalid => (none, invalid)
  | notSearched =>
    match extractDynamicUpdateSliceUpdate w typeOf c.bodyArg (w.loop.bodyOps.length + 1) c.yield none with
    | some info => (some info, found info)
    | none => (none, invalid)

variable (affineIndexInfo : V → Bool)

def dependsOnInduction (start : V) : Bool := !isConstantAcrossIterations w start && affineIndexInfo start

/-- The slice is at the place of the updates, and one wide in the dimensions that depend on the counter. -/
def readsUpdated (startIndices : List V) (sliceSizes : List Nat) (info : List (Recorded V)) : Bool :=
  startIndices = info.map Recorded.startIndex && sliceSizes = info.map Recorded.sliceSize &&
    (startIndices.zip sliceSizes).all (fun d => !dependsOnInduction w affineIndexInfo d.1 || d.2 = 1) &&
      startIndices.any (dependsOnInduction w affineIndexInfo)

/-- The carried value that is sliced. -/
def loadOf (i : Instr (Op α) V) : Option (Carried V × List V × List Nat) :=
  match i with
  | ⟨_, .dynamicSlice sliceSizes, operand :: startIndices⟩ =>
    (w.loop.carried.find? fun c => c.bodyArg = operand).map fun c => (c, startIndices, sliceSizes)
  | _ => none

/-- The slices that are taken from the operand, in the order of the body. -/
def redirected (dusInfo : V → DusInfoCollect V) : List (Instr (Op α) V) → List V
  | [] => []
  | i :: is =>
    match loadOf w i with
    | some (c, startIndices, sliceSizes) =>
      let (info, left) := (dusInfo c.bodyArg).load w typeOf c
      let rest := redirected (Function.update dusInfo c.bodyArg left) is
      if info.any (readsUpdated w affineIndexInfo startIndices sliceSizes) then i.result :: rest else rest
    | none => redirected dusInfo is

/-- The slices of the body that the pattern changes. -/
def rewritten : List V := redirected w typeOf affineIndexInfo (fun _ => .notSearched) w.loop.bodyOps

def setOperand (i : Instr (Op α) V) : Instr (Op α) V :=
  match loadOf w i with
  | some (c, startIndices, _) => { i with operands := c.operand :: startIndices }
  | none => i

/-- The loop where the counter is found, and `affineIndexInfo` has the values that are affine in it. -/
def matchAndRewrite : Program (Op α) V :=
  ⟨[], { w.loop with
    bodyOps := w.loop.bodyOps.map fun i =>
      if i.result ∈ rewritten w typeOf affineIndexInfo then setOperand w i else i }, []⟩

/-! ### What is recorded of the updates -/

/-- An index is in an interval that is clamped into the dimension. -/
def Within (dim size : Nat) (start : Int) (i : Nat) : Prop :=
  clampStart dim size start ≤ i ∧ i - clampStart dim size start < size

theorem Within.mono {dim size size' i : Nat} {start : Int} (hle : size ≤ size') (h : Within dim size start i) :
    Within dim size' start i := by
  simp only [Within, clampStart] at h ⊢
  omega

namespace Recorded

/-- More is recorded. -/
def Le (r r' : Recorded V) : Prop :=
  (r.fullUpdate = true → r'.fullUpdate = true) ∧
    (r'.fullUpdate = true ∨ (r.startIndex = r'.startIndex ∧ r.sliceSize ≤ r'.sliceSize))

variable {r r' r'' : Recorded V}

omit [DecidableEq V] in
theorem Le.refl (r : Recorded V) : r.Le r := ⟨id, .inr ⟨rfl, le_rfl⟩⟩

omit [DecidableEq V] in
theorem Le.trans (h : r.Le r') (h' : r'.Le r'') : r.Le r'' := by
  refine ⟨fun hfull => h'.1 (h.1 hfull), ?_⟩
  rcases h'.2 with hfull | ⟨hstart', hsize'⟩
  · exact .inl hfull
  · rcases h.2 with hfull | ⟨hstart, hsize⟩
    · exact .inl (h'.1 hfull)
    · exact .inr ⟨hstart.trans hstart', hsize.trans hsize'⟩

theorem merge_spec (h : r.merge r' = some r'') : r.Le r'' ∧ r'.Le r'' ∧
    (r''.fullUpdate = true → r'' = r ∨ r'' = r') := by
  rw [merge] at h
  split_ifs at h with hfull hfull' hstart
  · cases h
    exact ⟨.refl r, ⟨fun _ => hfull, .inl hfull⟩, fun _ => .inl rfl⟩
  · cases h
    exact ⟨⟨fun _ => hfull', .inl hfull'⟩, .refl r', fun _ => .inr rfl⟩
  · cases h
    exact ⟨⟨fun hr => absurd hr hfull, .inr ⟨rfl, le_max_right _ _⟩⟩,
      ⟨fun hr => absurd hr hfull', .inr ⟨hstart.symm, le_max_left _ _⟩⟩, nofun⟩

end Recorded

variable {w} {typeOf} {affineIndexInfo} {env e e' : V → Val α} {arg v : V} {fuel : Nat}
  {info : List (Recorded V)} {idx : List Nat}

/-- Nothing is recorded that leaves the index out. -/
def Covered (e : V → Val α) (shape : List Nat) (info : List (Recorded V)) (idx : List Nat) : Prop :=
  ∀ d r n, info[d]? = some r → toInt (e r.startIndex) = some n →
    r.fullUpdate = true ∨ Within (coord shape d) r.sliceSize n (coord idx d)

variable {shape sliceSizes sizes : List Nat} {ss : List Int} {startIndices : List V} {i : Instr (Op α) V}

omit [DecidableEq V] in
theorem Covered.mono {info' : List (Recorded V)} (h : Covered e shape info idx)
    (hle : Forall₂ Recorded.Le info info') : Covered e shape info' idx := by
  intro d r' n hr' hn
  obtain ⟨hd, rfl⟩ := List.getElem?_eq_some_iff.mp hr'
  have hd' : d < info.length := hle.length_eq ▸ hd
  obtain ⟨-, hfull | ⟨hstart, hsize⟩⟩ := hle.get hd' hd
  · exact .inl hfull
  · rw [get_eq_getElem, get_eq_getElem] at hstart hsize
    rcases h d info[d] n (getElem?_eq_getElem hd') (hstart ▸ hn) with hfull | hwithin
    · exact .inl ((hle.get hd' hd).1 hfull)
    · exact .inr (hwithin.mono hsize)

def FullIsZero (w : WhileOp α V) (info : List (Recorded V)) : Prop :=
  ∀ r ∈ info, r.fullUpdate = true → w.matchConstant r.startIndex = some 0

theorem merge_infos {old new merged : List (Recorded V)} (hlen : new.length = old.length)
    (h : allSome (zipWith Recorded.merge old new) = some merged) :
    Forall₂ Recorded.Le old merged ∧ Forall₂ Recorded.Le new merged ∧
      ∀ r ∈ merged, r.fullUpdate = true → r ∈ old ∨ r ∈ new := by
  induction old generalizing new merged with
  | nil =>
    obtain rfl := length_eq_zero_iff.mp hlen
    cases h
    exact ⟨.nil, .nil, nofun⟩
  | cons o old ih =>
    obtain ⟨n, new, rfl⟩ := exists_cons_of_length_eq_add_one hlen
    rw [zipWith_cons_cons] at h
    cases hmerge : o.merge n with
    | none =>
      rw [hmerge] at h
      cases h
    | some m =>
      rw [hmerge, allSome] at h
      obtain ⟨rest, hrest, rfl⟩ := map_eq_some_iff.mp h
      obtain ⟨hold, hnew, hfull⟩ := Recorded.merge_spec hmerge
      obtain ⟨holds, hnews, hfulls⟩ := ih (add_right_cancel hlen) hrest
      refine ⟨.cons hold holds, .cons hnew hnews, fun r hr hrfull => ?_⟩
      rcases mem_cons.mp hr with rfl | hr
      · rcases hfull hrfull with rfl | rfl
        · exact .inl mem_cons_self
        · exact .inr mem_cons_self
      · exact (hfulls r hr hrfull).imp (mem_cons_of_mem _) (mem_cons_of_mem _)

theorem fullIsZero_updateInfo (operand update : V) (startIndices : List V) :
    FullIsZero w (updateInfo w typeOf operand update startIndices) := by
  intro r hr hfull
  obtain ⟨d, hd, rfl⟩ := mem_mapIdx.mp hr
  rw [fullDimUpdated, Bool.and_eq_true, decide_eq_true_eq] at hfull
  exact hfull.1

omit [DecidableEq V] in
theorem toInt_start {starts : List V} {s : V} {d : Nat} (hss : allSome ((starts.map e).map toInt) = some ss)
    (hs : starts[d]? = some s) : toInt (e s) = some (ss.getD d 0) := by
  have h := congrArg (fun l => l[d]?) (allSome_eq_some_iff.mp hss)
  rw [getElem?_map, getElem?_map, getElem?_map, hs, map_some, map_some] at h
  obtain ⟨m, hm, heq⟩ := map_eq_some_iff.mp h.symm
  rw [← heq, getD_eq_getElem?_getD, hm, getD_some]

theorem covered_of_inRegion {operand update : V} (hss : allSome ((startIndices.map e).map toInt) = some ss)
    (hlen : ss.length = shape.length) (hupd : (e update).shape = (typeOf update).shape)
    (hsizes : (e update).shape.length = shape.length) (hidx : idx ∈ indices shape)
    (h : InRegion (zipWith3 clampStart shape (e update).shape ss) (e update).shape idx) :
    Covered e shape (updateInfo w typeOf operand update startIndices) idx := by
  intro d r n hr hn
  rw [updateInfo, getElem?_mapIdx] at hr
  obtain ⟨s, hs, rfl⟩ := map_eq_some_iff.mp hr
  have hd : d < shape.length := by
    obtain ⟨hd, -⟩ := List.getElem?_eq_some_iff.mp hs
    have hstarts := congrArg length (allSome_eq_some_iff.mp hss)
    rw [length_map, length_map, length_map] at hstarts
    omega
  have hregion := h d (by rwa [length_of_mem_indices hidx])
  rw [coord_clampStarts hlen hsizes hd, some.inj ((toInt_start hss hs).symm.trans hn)] at hregion
  exact .inr (hupd ▸ hregion)

/-- Outside of what is recorded the updates leave the argument as it is. -/
theorem extract_spec {recorded : Option (List (Recorded V))}
    (heval : ∀ i ∈ w.loop.bodyOps, i.op.eval (i.operands.map e) = some (e i.result))
    (hhas : ∀ i ∈ w.loop.bodyOps, ∀ v ∈ i.operands, (typeOf v).Has (e v))
    (hold : ∀ old, recorded = some old → old.length = (e v).shape.length ∧ FullIsZero w old)
    (h : extractDynamicUpdateSliceUpdate w typeOf arg fuel v recorded = some info) :
    (e v).shape = (e arg).shape ∧ info.length = (e arg).shape.length ∧ FullIsZero w info ∧
      (∀ old, recorded = some old → Forall₂ Recorded.Le old info) ∧
        ∀ idx ∈ indices (e arg).shape, ¬Covered e (e arg).shape info idx →
          (e v).tensor.get idx = (e arg).tensor.get idx := by
  induction fuel generalizing v recorded with
  | zero => cases h
  | succ fuel ih =>
    rw [extractDynamicUpdateSliceUpdate] at h
    split at h
    · rename_i r operand update startIndices hfind
      have hi := mem_of_find?_eq_some hfind
      obtain rfl : r = v := by simpa using find?_some hfind
      obtain ⟨merged, hmerged, hafter⟩ := bind_eq_some_iff.mp h
      have hz := heval _ hi
      rw [map_cons, map_cons] at hz
      obtain ⟨ss, hss, hok, hshape, hget⟩ := eval_dynamicUpdateSlice.mp hz
      have hupd : (e update).shape = (typeOf update).shape := (hhas _ hi update (by simp)).1
      set new := updateInfo w typeOf operand update startIndices with hnew
      have hnewLength : new.length = (e operand).shape.length := by
        have hstarts := congrArg length (allSome_eq_some_iff.mp hss)
        rw [length_map, length_map, length_map] at hstarts
        rw [hnew, updateInfo, length_mapIdx, hstarts, hok.1]
      -- what is recorded after this update is more than before, and has this update
      obtain ⟨hmergedLength, hzero, holdLe, hnewLe⟩ : merged.length = (e operand).shape.length ∧ FullIsZero w merged ∧
          (∀ old, recorded = some old → Forall₂ Recorded.Le old merged) ∧ Forall₂ Recorded.Le new merged := by
        cases recorded with
        | none =>
          obtain rfl := some.inj hmerged
          exact ⟨hnewLength, fullIsZero_updateInfo operand update startIndices, nofun,
            forall₂_same.mpr fun r _ => .refl r⟩
        | some old =>
          obtain ⟨hlen, hzero⟩ := hold old rfl
          have hsame : new.length = old.length := by rw [hnewLength, hlen, hshape]
          obtain ⟨holdLe, hnewLe, hfull⟩ := merge_infos hsame hmerged
          refine ⟨holdLe.length_eq.symm.trans (hlen.trans (congrArg _ hshape)), fun r hr hrfull => ?_, ?_, hnewLe⟩
          · rcases hfull r hr hrfull with hr | hr
            · exact hzero r hr hrfull
            · exact fullIsZero_updateInfo operand update startIndices r hr hrfull
          · intro old' hold'
            cases hold'
            exact holdLe
      have hrest : (e operand).shape = (e arg).shape ∧ info.length = (e arg).shape.length ∧ FullIsZero w info ∧
          Forall₂ Recorded.Le merged info ∧ ∀ idx ∈ indices (e arg).shape, ¬Covered e (e arg).shape info idx →
            (e operand).tensor.get idx = (e arg).tensor.get idx := by
        split at hafter
        · rename_i harg
          cases hafter
          subst harg
          exact ⟨rfl, hmergedLength, hzero, forall₂_same.mpr fun r _ => .refl r, fun _ _ _ => rfl⟩
        · have hstart : ∀ old, some merged = some old → old.length = (e operand).shape.length ∧ FullIsZero w old := by
            intro old hold
            cases hold
            exact ⟨hmergedLength, hzero⟩
          obtain ⟨hshape, hlen, hzero, hle, hsame⟩ := ih hstart hafter
          exact ⟨hshape, hlen, hzero, hle merged rfl, hsame⟩
      obtain ⟨hoperand, hlen, hzero, hle, hsame⟩ := hrest
      refine ⟨hshape.trans hoperand, hlen, hzero, fun old hold => ?_, fun idx hidx hout => ?_⟩
      · exact forall₂_trans (R := Recorded.Le) (fun _ _ _ => Recorded.Le.trans) (holdLe old hold) hle
      · have hlengthIdx := length_of_mem_indices hidx
        have hnot : ¬InRegion (zipWith3 clampStart (e operand).shape (e update).shape ss) (e update).shape idx := by
          intro hin
          rw [← hoperand] at hidx hout
          exact hout ((covered_of_inRegion hss hok.1 hupd hok.2.length_eq hidx hin).mono
            (forall₂_trans (R := Recorded.Le) (fun _ _ _ => Recorded.Le.trans) hnewLe hle))
        rw [← hsame idx hidx hout, hget idx (hoperand ▸ hidx), regionIndex_of_not_inRegion _ _ hnot]
        · rfl
        · rw [length_clampStarts hok.1 hok.2.length_eq, hlengthIdx, hoperand]
        · rw [hok.2.length_eq, hlengthIdx, hoperand]
    · cases h

/-! ### The slices that are changed -/

theorem loadOf_spec {c : Carried V} (h : loadOf w i = some (c, startIndices, sliceSizes)) :
    c ∈ w.loop.carried ∧ i.op = .dynamicSlice sliceSizes ∧
      i.operands = c.bodyArg :: startIndices := by
  unfold loadOf at h
  split at h
  · obtain ⟨c', hfind, heq⟩ := map_eq_some_iff.mp h
    obtain ⟨rfl, rfl, rfl⟩ : c' = c ∧ _ = startIndices ∧ _ = sliceSizes := by simpa using heq
    have harg := find?_some hfind
    rw [decide_eq_true_eq] at harg
    exact ⟨mem_of_find?_eq_some hfind, rfl, by rw [harg]⟩
  · cases h

def dusInfoOf (w : WhileOp α V) (typeOf : V → ValueType) (c : Carried V) : Option (List (Recorded V)) :=
  extractDynamicUpdateSliceUpdate w typeOf c.bodyArg (w.loop.bodyOps.length + 1) c.yield none

/-- What is kept of the updates for later slices. -/
def Kept (w : WhileOp α V) (typeOf : V → ValueType) (dusInfo : V → DusInfoCollect V) : Prop :=
  ∀ c ∈ w.loop.carried, ∀ info, dusInfo c.bodyArg = .found info → info = [] ∨ dusInfoOf w typeOf c = some info

theorem load_spec {c : Carried V} {collected left : DusInfoCollect V} {found : Option (List (Recorded V))}
    (hcollected : ∀ info, collected = .found info → info = [] ∨ dusInfoOf w typeOf c = some info)
    (h : collected.load w typeOf c = (found, left)) :
    (∀ info, found = some info → info = [] ∨ dusInfoOf w typeOf c = some info) ∧
      ∀ info, left = .found info → info = [] ∨ dusInfoOf w typeOf c = some info := by
  cases collected with
  | found info =>
    cases h
    refine ⟨fun info' heq => ?_, fun info' heq => .inl (DusInfoCollect.found.inj heq).symm⟩
    cases heq
    exact hcollected _ rfl
  | invalid =>
    cases h
    exact ⟨nofun, nofun⟩
  | notSearched =>
    rw [DusInfoCollect.load] at h
    split at h
    · rename_i info hinfo
      cases h
      refine ⟨fun info' heq => ?_, fun info' heq => ?_⟩
      · cases heq
        exact .inr hinfo
      · obtain rfl := DusInfoCollect.found.inj heq
        exact .inr hinfo
    · cases h
      exact ⟨nofun, nofun⟩

/-- A slice that is changed is at the place of the updates. -/
theorem redirected_spec {is : List (Instr (Op α) V)} {dusInfo : V → DusInfoCollect V}
    (hnodup : (w.loop.carried.map Carried.bodyArg).Nodup) (hkept : Kept w typeOf dusInfo)
    (hv : v ∈ redirected w typeOf affineIndexInfo dusInfo is) : ∃ i ∈ is, i.result = v ∧
      ∃ c startIndices sliceSizes info, loadOf w i = some (c, startIndices, sliceSizes) ∧
        dusInfoOf w typeOf c = some info ∧ startIndices = info.map Recorded.startIndex ∧
          sliceSizes = info.map Recorded.sliceSize := by
  induction is generalizing dusInfo with
  | nil => cases hv
  | cons i is ih =>
    have hrest : ∀ {dusInfo}, Kept w typeOf dusInfo → v ∈ redirected w typeOf affineIndexInfo dusInfo is →
        ∃ j ∈ i :: is, j.result = v ∧ ∃ c startIndices sliceSizes info,
          loadOf w j = some (c, startIndices, sliceSizes) ∧ dusInfoOf w typeOf c = some info ∧
            startIndices = info.map Recorded.startIndex ∧ sliceSizes = info.map Recorded.sliceSize := by
      intro dusInfo hkept hv
      obtain ⟨j, hj, hfound⟩ := ih hkept hv
      exact ⟨j, mem_cons_of_mem _ hj, hfound⟩
    rw [redirected] at hv
    split at hv
    · rename_i c startIndices sliceSizes hload
      obtain ⟨hc, -, -⟩ := loadOf_spec hload
      dsimp only at hv
      set found := (dusInfo c.bodyArg).load w typeOf c with hfound
      obtain ⟨hinfo, hleft⟩ := load_spec (hkept c hc) hfound.symm
      have hkept' : Kept w typeOf (Function.update dusInfo c.bodyArg found.2) := by
        intro c' hc' info heq
        by_cases harg : c'.bodyArg = c.bodyArg
        · obtain rfl := inj_on_of_nodup_map hnodup hc' hc harg
          rw [Function.update_self] at heq
          exact hleft info heq
        · rw [Function.update_of_ne harg] at heq
          exact hkept c' hc' info heq
      split at hv
      · rename_i hany
        rcases mem_cons.mp hv with rfl | hv
        · obtain ⟨info, hsome, hreads⟩ := (Option.any_eq_true ..).mp hany
          simp only [readsUpdated, Bool.and_eq_true, decide_eq_true_eq] at hreads
          obtain ⟨⟨⟨hstarts, hsizes⟩, -⟩, hdepends⟩ := hreads
          refine ⟨i, mem_cons_self, rfl, c, startIndices, sliceSizes, info, hload, ?_, hstarts, hsizes⟩
          -- without dimensions nothing depends on the counter
          refine (hinfo info hsome).resolve_left fun hempty => ?_
          rw [hempty] at hstarts
          subst hstarts
          cases hdepends
        · exact hrest hkept' hv
      · exact hrest hkept' hv
    · exact hrest hkept hv

/-! ### Elements that are not written before they are read -/

theorem eval_dynamicSlice_congr {x y : Val α} {starts : List (Val α)} (hshape : x.shape = y.shape)
    (hget : ∀ ss, allSome (starts.map toInt) = some ss → DynamicSliceOk x.shape sizes ss.length →
      ∀ idx ∈ indices sizes, x.tensor.get (dynamicIndex x.shape sizes ss idx) =
        y.tensor.get (dynamicIndex x.shape sizes ss idx)) :
    (Op.dynamicSlice sizes).eval (x :: starts) = (Op.dynamicSlice sizes).eval (y :: starts) := by
  refine ext fun z => ?_
  rw [eval_dynamicSlice, eval_dynamicSlice, ← hshape]
  refine exists_congr fun ss => and_congr_right fun hss => and_congr_right fun hok => and_congr_right fun _ => ?_
  exact forall₂_congr fun idx hidx => by rw [hget ss hss hok idx hidx]

theorem dynamicIndex_mem (hok : DynamicSliceOk shape sizes ss.length) {idx : List Nat}
    (hidx : idx ∈ indices sizes) : dynamicIndex shape sizes ss idx ∈ indices shape ∧
      InRegion (zipWith3 clampStart shape sizes ss) sizes (dynamicIndex shape sizes ss idx) := by
  obtain ⟨hlen, hle⟩ := hok
  have hclamps := length_clampStarts hlen hle.length_eq
  have hidxLength := length_of_mem_indices hidx
  have hcoord : ∀ d < shape.length, coord (dynamicIndex shape sizes ss idx) d =
      coord (zipWith3 clampStart shape sizes ss) d + coord idx d := by
    intro d hd
    have hd' : d < idx.length := by rw [hidxLength, hle.length_eq]; exact hd
    rw [dynamicIndex, coord_eq_getElem (by rw [length_zipWith]; omega), getElem_zipWith,
      coord_eq_getElem (hclamps ▸ hd), coord_eq_getElem hd']
  have hlengthEq : (dynamicIndex shape sizes ss idx).length = shape.length := by
    rw [dynamicIndex, length_zipWith, hclamps, hidxLength, hle.length_eq, min_self]
  have hsize : ∀ d < shape.length, coord idx d < coord sizes d := fun d hd =>
    (mem_indices_iff.mp hidx).2 d (hle.length_eq ▸ hd)
  constructor
  · refine mem_indices_iff.mpr ⟨hlengthEq, fun d hd => ?_⟩
    have hd' : d < sizes.length := hle.length_eq ▸ hd
    have hfit := clampStart_le (hle.get hd' hd) (ss.getD d 0)
    rw [get_eq_getElem, get_eq_getElem, ← coord_eq_getElem hd', ← coord_eq_getElem hd] at hfit
    have hlt := hsize d hd
    rw [hcoord d hd, coord_clampStarts hlen hle.length_eq hd]
    omega
  · intro d hd
    rw [hlengthEq] at hd
    have hlt := hsize d hd
    rw [hcoord d hd]
    omega

section

variable (w typeOf affineIndexInfo) (env : V → Val α)

/-- In iteration `k` the slice reads the element. -/
def ReadsAt (c : Carried V) (startIndices : List V) (sliceSizes : List Nat) (k : Nat) (idx : List Nat) : Prop :=
  ∃ σ e ss, w.loop.entering (semantics α) env k = some σ ∧ w.loop.continues (semantics α) σ = some true ∧
    w.loop.bodyEnv (semantics α) σ = some e ∧ allSome ((startIndices.map e).map toInt) = some ss ∧
      InRegion (List.zipWith3 clampStart (env c.operand).shape sliceSizes ss) sliceSizes idx

/-- No slice that is changed reads an element in two iterations. -/
def ReadsApart (N : Nat) : Prop :=
  ∀ i ∈ w.loop.bodyOps, i.result ∈ rewritten w typeOf affineIndexInfo → ∀ c startIndices sliceSizes,
    loadOf w i = some (c, startIndices, sliceSizes) → ∀ j k, j < k → k ≤ N → ∀ idx ∈ indices (env c.operand).shape,
      ReadsAt w env c startIndices sliceSizes k idx → ¬ReadsAt w env c startIndices sliceSizes j idx

end

section

variable {σ : V → Val α} {c : Carried V} {k : Nat} (hw : w.WellFormed) (htyped : w.WellTyped typeOf env)

include hw htyped

theorem shape_entering (hσ : w.loop.entering (semantics α) env k = some σ) (hc : c ∈ w.loop.carried) :
    (σ c.result).shape = (env c.operand).shape :=
  (htyped.has_entering hw hσ hc).1.trans (htyped.outside _ (hw.operand_outside c hc)).1.symm

theorem get_of_not_covered (hc : c ∈ w.loop.carried) (hinfo : dusInfoOf w typeOf c = some info)
    (hσ : w.loop.entering (semantics α) env k = some σ) (hidx : idx ∈ indices (env c.operand).shape)
    (hout : ∀ j < k, ∀ σ e, w.loop.entering (semantics α) env j = some σ →
      w.loop.continues (semantics α) σ = some true → w.loop.bodyEnv (semantics α) σ = some e →
        ¬Covered e (env c.operand).shape info idx) :
    (σ c.result).tensor.get idx = (env c.operand).tensor.get idx := by
  induction k generalizing σ with
  | zero =>
    cases hσ
    rw [WhileOp.start_result hw hc]
  | succ k ih =>
    obtain ⟨σ₀, hσ₀, htrue, hnext⟩ := Loop.entering_succ_eq_some.mp hσ
    obtain ⟨e, he, -⟩ := map_eq_some_iff.mp hnext
    have hbefore := ih hσ₀ fun j hj => hout j (Nat.lt_succ_of_lt hj)
    have harg : e c.bodyArg = σ₀ c.result := WhileOp.bodyEnv_bodyArg hw he hc
    have hshape : (e c.bodyArg).shape = (env c.operand).shape := by rw [harg, shape_entering hw htyped hσ₀ hc]
    obtain ⟨-, -, -, -, hsame⟩ := extract_spec (fun i hi => eval_of_run hw.body_ordered he hi)
      (fun i hi v hv => htyped.has_bodyEnv hw hσ₀ (fun c hc => htyped.has_entering hw hσ₀ hc) he (hw.body_scope i hi v hv))
      (fun old hold => by cases hold) hinfo
    rw [hshape] at hsame
    rw [WhileOp.next_result hw he hnext hc, hsame idx hidx (hout k (Nat.lt_succ_self k) σ₀ e hσ₀ htrue he), harg, hbefore]

theorem readsAt_of_covered {j : Nat} (henv : w.Holds env) (hi : i ∈ w.loop.bodyOps)
    (hload : loadOf w i = some (c, startIndices, sliceSizes)) (hzero : FullIsZero w info)
    (hstarts : startIndices = info.map Recorded.startIndex) (hsizes : sliceSizes = info.map Recorded.sliceSize)
    (hidx : idx ∈ indices (env c.operand).shape) (hread : ReadsAt w env c startIndices sliceSizes k idx)
    (hσ : w.loop.entering (semantics α) env j = some σ) (htrue : w.loop.continues (semantics α) σ = some true)
    (he : w.loop.bodyEnv (semantics α) σ = some e) (hcovered : Covered e (env c.operand).shape info idx) :
    ReadsAt w env c startIndices sliceSizes j idx := by
  obtain ⟨hc, hop, hops⟩ := loadOf_spec hload
  obtain ⟨σ', e', ss', hσ', htrue', he', hss', hregion'⟩ := hread
  have hok : ∀ {n σ e} {ss : List Int}, w.loop.entering (semantics α) env n = some σ →
      w.loop.bodyEnv (semantics α) σ = some e → allSome ((startIndices.map e).map toInt) = some ss →
        DynamicSliceOk (env c.operand).shape sliceSizes ss.length := by
    intro n σ e ss hσ he hss
    have heval := eval_of_run hw.body_ordered he hi
    rw [hops, hop, map_cons] at heval
    obtain ⟨ss₀, hss₀, hok, -, -⟩ := eval_dynamicSlice.mp heval
    rwa [WhileOp.bodyEnv_bodyArg hw he hc, shape_entering hw htyped hσ hc, some.inj (hss₀.symm.trans hss)] at hok
  obtain ⟨ss, hss⟩ : ∃ ss, allSome ((startIndices.map e).map toInt) = some ss := by
    have heval := eval_of_run hw.body_ordered he hi
    rw [hops, hop, map_cons] at heval
    obtain ⟨ss, hss, -⟩ := eval_dynamicSlice.mp heval
    exact ⟨ss, hss⟩
  obtain ⟨hlen, hle⟩ := hok hσ he hss
  obtain ⟨hlen', -⟩ := hok hσ' he' hss'
  refine ⟨σ, e, ss, hσ, htrue, he, hss, fun d hd => ?_⟩
  have hd' : d < (env c.operand).shape.length := by rwa [← length_of_mem_indices hidx]
  have hinfo : d < info.length := by
    have h := hle.length_eq
    rw [hsizes, length_map] at h
    omega
  have hr : info[d]? = some info[d] := getElem?_eq_getElem hinfo
  have hs : startIndices[d]? = some info[d].startIndex := by rw [hstarts, getElem?_map, hr, map_some]
  have hsize : coord sliceSizes d = info[d].sliceSize := by rw [hsizes, coord_map _ _ hinfo]
  have hregion := hregion' d hd
  rw [coord_clampStarts hlen' hle.length_eq hd'] at hregion
  rw [coord_clampStarts hlen hle.length_eq hd']
  rcases hcovered d _ _ hr (toInt_start hss hs) with hfull | hwithin
  · -- the start is zero in both iterations
    have hconstant := hzero _ (getElem_mem hinfo) hfull
    have hn := toInt_start hss hs
    have hn' := toInt_start hss' hs
    rw [WhileOp.matchConstant_spec hw henv hσ he hconstant, toInt_ofInt] at hn
    rw [WhileOp.matchConstant_spec hw henv hσ' he' hconstant, toInt_ofInt] at hn'
    rw [← some.inj hn, some.inj hn']
    exact hregion
  · rw [hsize]
    exact hwithin

end

/-- Where no slice that is changed reads an element in two iterations, all values are as before. -/
theorem preservesTo_of_readsApart (w : WhileOp α V) (typeOf : V → ValueType) (affineIndexInfo : V → Bool)
    (env : V → Val α) (N : Nat) (hw : w.WellFormed) (henv : w.Holds env) (htyped : w.WellTyped typeOf env)
    (hapart : ReadsApart w typeOf affineIndexInfo env N) :
    PreservesTo (semantics α) w.loop (matchAndRewrite w typeOf affineIndexInfo) ⟨id, id, id⟩ env env N := by
  refine preservesTo_of_simulates (R := fun _ σ τ => τ = σ) rfl rfl ?_ ?_ ?_
  · rintro k hk σ τ e hσ rfl he
    exact ⟨e, he, rfl, fun v _ => rfl⟩
  · rintro k hk σ τ e hσ rfl htrue he
    refine ⟨e, ?_, fun v _ => rfl, fun _ => rfl⟩
    refine run_replaced (fun v => ∀ i ∈ w.loop.bodyOps, i.result ≠ v)
      (Straightline.assign w.loop.carried Carried.bodyArg (fun c => τ c.result) τ) hw.body_ordered he
      (fun i hi hkeep => hkeep i hi rfl) (fun v _ => rfl) ?_
    refine forall₂_map_right_iff.mpr (forall₂_same.mpr fun i hi => ?_)
    by_cases hmem : i.result ∈ rewritten w typeOf affineIndexInfo
    · rw [if_pos hmem]
      obtain ⟨i', hi', hresult, c, startIndices, sliceSizes, info, hload, hinfo, hstarts, hsizes⟩ :=
        redirected_spec hw.nodup_bodyArg (fun _ _ _ heq => by cases heq) hmem
      obtain rfl := hw.body_ordered.eq_of_result_eq hi' hi hresult
      obtain ⟨hc, hop, hoperands⟩ := loadOf_spec hload
      have hset : setOperand w i' = { i' with operands := c.operand :: startIndices } := by rw [setOperand, hload]
      rw [hset]
      refine ⟨rfl, fun mid hkeep hmid => ?_⟩
      have harg : mid c.bodyArg = τ c.result := by
        rw [hkeep _ fun i hi => hw.bodyOp_ne_bodyArg hi hc, assign_of_mem hw.nodup_bodyArg hc]
      have hout := hw.operand_outside c hc
      have hoperand : mid c.operand = env c.operand := by
        rw [hkeep _ fun i hi => WhileOp.bodyOp_ne hout hi, assign_of_ne fun c' hc' => WhileOp.bodyArg_ne hout hc',
          WhileOp.entering_outside hσ hout]
      have hvalues : startIndices.map mid = startIndices.map e :=
        map_congr_left fun s hs => hmid s (hoperands ▸ mem_cons_of_mem _ hs)
      change i'.op.eval ((c.operand :: startIndices).map mid) = i'.op.eval (i'.operands.map mid)
      rw [hop, hoperands, map_cons, map_cons, harg, hoperand, hvalues]
      have hshape := shape_entering hw htyped hσ hc
      refine eval_dynamicSlice_congr hshape.symm fun ss hss hok idx hidx => ?_
      obtain ⟨hplace, hregion⟩ := dynamicIndex_mem hok hidx
      obtain ⟨-, -, hzero, -, -⟩ := extract_spec (fun i hi => eval_of_run hw.body_ordered he hi)
        (fun i hi v hv => htyped.has_bodyEnv hw hσ (fun c hc => htyped.has_entering hw hσ hc) he (hw.body_scope i hi v hv))
        (fun old hold => by cases hold) hinfo
      refine (get_of_not_covered hw htyped hc hinfo hσ hplace fun j hj σ' e' hσ' htrue' he' hcovered => ?_).symm
      have hread : ReadsAt w env c startIndices sliceSizes k _ := ⟨τ, e, ss, hσ, htrue, he, hss, hregion⟩
      exact hapart i' hi hmem c startIndices sliceSizes hload j k hj hk _ hplace hread
        (readsAt_of_covered hw htyped henv hi hload hzero hstarts hsizes hplace hread hσ' htrue' he' hcovered)
    · rw [if_neg hmem]
      exact ⟨rfl, fun _ _ _ => rfl⟩
  · rintro n hn σ τ hσ rfl
    exact ⟨τ, rfl, fun v => rfl⟩

end

/-! ### A carried tensor of two elements -/

namespace Pair

/-- Every iteration reads the element at the counter, and then writes it. -/
def loop : WhileOp Unit Nat where
  loop := ⟨[⟨0, 10, 20, 24, 30⟩, ⟨1, 11, 21, 26, 31⟩, ⟨5, 12, 22, 25, 32⟩], [⟨15, .compare .LT, [10, 2]⟩], 15,
    [⟨24, .add ⟨64, false⟩, [20, 3]⟩, ⟨25, .dynamicSlice [1], [21, 20]⟩, ⟨26, .dynamicUpdateSlice, [21, 4, 20]⟩]⟩
  defs v := if v = 3 then some (.constant (ofInt 1), []) else none

def typeOf (v : Nat) : ValueType :=
  ⟨if v ∈ [1, 21, 26] then [2] else if v ∈ [4, 5, 22, 25] then [1] else [], false⟩

def env (limit : Int) (v : Nat) : Val Unit :=
  ofInts (typeOf v).shape fun idx => ([0, 10 + coord idx 0, limit, 1, 7] : List Int).getD v 0

/-- The counter is affine in itself. -/
def affineIndexInfo (v : Nat) : Bool := v = 20

theorem defs_eq {v : Nat} {op : Op Unit} {operands : List Nat} (h : loop.defs v = some (op, operands)) :
    v = 3 ∧ op = .constant (ofInt 1) ∧ operands = [] := by
  obtain ⟨rfl, h⟩ := ite_none_right_eq_some.mp h
  cases some.inj h
  exact ⟨rfl, rfl, rfl⟩

theorem wellFormed : loop.WellFormed := by
  refine ⟨by decide, by decide, by decide, by decide, by decide, by decide, by decide, by decide, ?_⟩
  intro v op operands hv
  obtain ⟨rfl, -, rfl⟩ := defs_eq hv
  exact ⟨by decide, nofun⟩

theorem holds (limit : Int) : loop.Holds (env limit) := by
  intro v op operands hv
  obtain ⟨rfl, rfl, rfl⟩ := defs_eq hv
  rfl

theorem wellTyped (limit : Int) : loop.WellTyped typeOf (env limit) := by
  refine ⟨fun i hi e z hops h => ⟨?_, nofun⟩, by decide, fun _ _ => ⟨rfl, nofun⟩⟩
  simp only [loop, mem_cons, not_mem_nil, or_false] at hi
  rcases hi with rfl | rfl | rfl
  · exact (arith_eq_some.mp h).2.1.trans (hops 20 (by decide)).1
  · obtain ⟨-, -, -, hshape, -⟩ := eval_dynamicSlice.mp h
    exact hshape
  · obtain ⟨-, -, -, hshape, -⟩ := eval_dynamicUpdateSlice.mp h
    exact hshape.trans (hops 21 (by decide)).1

theorem idx_of_readsAt {k : Nat} {idx : List Nat} (hk : k ≤ 2) (hidx : idx ∈ indices [2])
    (h : ReadsAt loop (env 2) ⟨1, 11, 21, 26, 31⟩ [20] [1] k idx) : idx = [k] := by
  obtain ⟨σ, e, ss, hσ, htrue, he, hss, hregion⟩ := h
  have hend : (loop.loop.entering (semantics Unit) (env 2) 2).bind (loop.loop.continues (semantics Unit)) =
      some false := by decide +kernel
  have hstarts : ∀ k < 2, ((loop.loop.entering (semantics Unit) (env 2) k).bind fun σ =>
      (loop.loop.bodyEnv (semantics Unit) σ).bind fun e => allSome ((map e [20]).map toInt)) = some [(k : Int)] := by
    decide +kernel
  obtain ⟨i, hi, rfl⟩ : ∃ i < 2, idx = [i] := by
    obtain ⟨i, hi, rest, hrest, rfl⟩ := mem_indices_cons.mp hidx
    exact ⟨i, hi, by rw [mem_indices_nil.mp hrest]⟩
  rcases lt_or_eq_of_le hk with hk | rfl
  · have hstart := hstarts k hk
    rw [hσ, bind_some, he, bind_some, hss] at hstart
    cases hstart
    have hzero : clampStart 2 1 k ≤ i ∧ i - clampStart 2 1 k < 1 := hregion 0 one_pos
    have hclamp : clampStart 2 1 k = k := clampStart_eq k (by omega)
    rw [hclamp] at hzero
    exact congrArg (fun n => [n]) (by omega)
  · rw [hσ, bind_some, htrue] at hend
    cases hend

/-- Two iterations read one element each. -/
theorem preservesTo_pair : (loop.loop.exits (semantics Unit) (env 2) 2).isSome ∧
    rewritten loop typeOf affineIndexInfo = [25] ∧
      PreservesTo (semantics Unit) loop.loop (matchAndRewrite loop typeOf affineIndexInfo) ⟨id, id, id⟩ (env 2)
        (env 2) 2 := by
  have hrewritten : rewritten loop typeOf affineIndexInfo = [25] := by decide +kernel
  refine ⟨by decide +kernel, hrewritten, preservesTo_of_readsApart loop typeOf affineIndexInfo (env 2) 2 wellFormed
    (holds 2) (wellTyped 2) ?_⟩
  intro i hi hmem c startIndices sliceSizes hload j k hjk hk idx hidx hread hread'
  rw [hrewritten, mem_singleton] at hmem
  obtain rfl := wellFormed.body_ordered.eq_of_result_eq hi
    (show ⟨25, .dynamicSlice [1], [21, 20]⟩ ∈ loop.loop.bodyOps from .tail _ (.head _)) hmem
  obtain ⟨rfl, rfl, rfl⟩ : c = ⟨1, 11, 21, 26, 31⟩ ∧ startIndices = [20] ∧ sliceSizes = [1] := by
    have hfound : loadOf loop ⟨25, .dynamicSlice [1], [21, 20]⟩ = some (⟨1, 11, 21, 26, 31⟩, [20], [1]) := rfl
    simpa using (some.inj (hfound.symm.trans hload)).symm
  have heq := (idx_of_readsAt hk hidx hread).symm.trans (idx_of_readsAt (hjk.le.trans hk) hidx hread')
  exact hjk.ne' (singleton_inj.mp heq)

/-- The third iteration is clamped to the place of the second. -/
theorem not_preservesTo_three : loop.WellFormed ∧ loop.Holds (env 3) ∧
    ∃ σ, loop.loop.exits (semantics Unit) (env 3) 3 = some σ ∧
      ¬PreservesTo (semantics Unit) loop.loop (matchAndRewrite loop typeOf affineIndexInfo) ⟨id, id, id⟩ (env 3)
        (env 3) 3 := by
  have hresults : (loop.loop.exits (semantics Unit) (env 3) 3).map (fun σ => (σ 32).tensor.get [0]) =
      some (.int 7) := by decide +kernel
  have hresults' : ((matchAndRewrite loop typeOf affineIndexInfo).exits (semantics Unit) (env 3) 3).map
      (fun σ => (σ 32).tensor.get [0]) = some (.int 11) := by decide +kernel
  obtain ⟨σ, hσ, hlast⟩ := map_eq_some_iff.mp hresults
  obtain ⟨τ, hτ, hlast'⟩ := map_eq_some_iff.mp hresults'
  refine ⟨wellFormed, holds 3, σ, hσ, fun h => ?_⟩
  obtain ⟨τ', hτ', hsame⟩ := h.exits 3 le_rfl σ hσ
  cases hτ.symm.trans hτ'
  rw [← hsame 32] at hlast
  exact absurd (hlast.symm.trans hlast') (by decide)

end Pair

end CarriedLoads

end EnzymeJax.WhileLoop
