import EnzymeJax.WhileLoop.SimpleIV

/-!
# Carried values that the body yields as they are

`WhileSimplify` erases, on its way over the operands, the block arguments of the values that are yielded as they are,
so the number of an operand and that of its argument differ after the first removal.
-/

namespace EnzymeJax.WhileLoop

open Tensor Straightline List Option

variable {α V : Type} [DecidableEq V]

/-- How the values outside are known, and whether all of them may be moved into the regions. -/
structure Hoisting (V : Type) where
  hoistAll : Bool
  blockArgument : V → Bool
  functionArgument : V → Bool

def WhileOp.definedByConstant (w : WhileOp α V) (v : V) : Bool :=
  match w.defs v with
  | some (.constant _, _) => true
  | _ => false

/-- The loop while carried values are removed: the block arguments and operands of the terminator that are
left, and the numbers of the operands that stay. -/
structure Removal (α V : Type) where
  before : List (Instr (Op α) V)
  carried : List (Carried V)
  condOps : List (Instr (Op α) V)
  test : V
  bodyOps : List (Instr (Op α) V)
  operands : List Nat
  deleted : Nat

/-- The new operation takes over the regions, on the operands that stay. -/
def Removal.finish (all : List (Carried V)) (s : Removal α V) : Option (Program (Op α) V) :=
  if s.operands.length = all.length then none
  else
    let carried := List.zipWith (fun opOperand (c : Carried V) => match all[opOperand]? with
      | some o => { c with operand := o.operand, result := o.result }
      | none => c) s.operands s.carried
    some ⟨s.before, ⟨carried, s.condOps, s.test, s.bodyOps⟩, []⟩

namespace WhileSimplify

variable (hoisting : Hoisting V) (w : WhileOp α V)

def canHoist (inputValue : V) : Bool :=
  w.definedByConstant inputValue || hoisting.hoistAll || hoisting.functionArgument inputValue

def replaceAllUsesWith (old new v : V) : V := if v = old then new else v

def step (s : Removal α V) (opOperand : Nat) : Option (Removal α V) := do
  let inputValue := (← w.loop.carried[opOperand]?).operand
  let i := opOperand - s.deleted
  let c ← s.carried[i]?
  if canHoist hoisting w inputValue ∧ c.bodyArg = c.yield then
    let inBody := replaceAllUsesWith c.bodyArg inputValue
    let inCond := replaceAllUsesWith c.condArg inputValue
    return { s with
      carried := (s.carried.map fun c => { c with yield := inBody c.yield }).eraseIdx i
      condOps := s.condOps.map (Instr.rename id inCond)
      test := inCond s.test
      bodyOps := s.bodyOps.map (Instr.rename id inBody)
      deleted := s.deleted + 1 }
  else return { s with operands := s.operands ++ [opOperand] }

def matchAndRewrite : Option (Program (Op α) V) :=
  ((List.range w.loop.carried.length).foldlM (step hoisting w)
    ⟨[], w.loop.carried, w.loop.condOps, w.loop.test, w.loop.bodyOps, [], 0⟩).bind (Removal.finish w.loop.carried)

end WhileSimplify

/-! ### The values that are left -/

section Left

variable {U : Type} (all : List (Carried U)) (p : Carried U → Bool)

/-- The values removed among the first `m`. -/
def removed (m : Nat) : List (Carried U) := (all.take m).filter p

/-- The values kept among the first `m`. -/
def kept (m : Nat) : List (Carried U) := (all.take m).filter fun c => !p c

/-- The values left when the first `m` have been looked at. -/
def left (m : Nat) : List (Carried U) := kept all p m ++ all.drop m

def keptNumbers (m : Nat) : List Nat := (List.range m).filter fun j => (all[j]?).any fun c => !p c

variable {all p} {m : Nat}

theorem removed_succ (hm : m < all.length) :
    removed all p (m + 1) = if p all[m] then removed all p m ++ [all[m]] else removed all p m := by
  rw [removed, take_succ_eq_append_getElem hm, filter_append, filter_singleton]
  cases p all[m] with
  | true => rfl
  | false => exact append_nil _

theorem kept_succ (hm : m < all.length) :
    kept all p (m + 1) = if p all[m] then kept all p m else kept all p m ++ [all[m]] := by
  rw [kept, take_succ_eq_append_getElem hm, filter_append, filter_singleton]
  cases p all[m] with
  | true => exact append_nil _
  | false => rfl

theorem keptNumbers_succ (hm : m < all.length) :
    keptNumbers all p (m + 1) = if p all[m] then keptNumbers all p m else keptNumbers all p m ++ [m] := by
  rw [keptNumbers, range_succ, filter_append, filter_singleton, getElem?_eq_getElem hm]
  cases hp : p all[m] with
  | true | false => simp [hp, keptNumbers]

theorem length_kept (hm : m ≤ all.length) : (kept all p m).length = m - (removed all p m).length := by
  have h := length_eq_length_filter_add (l := all.take m) p
  rw [length_take_of_le hm] at h
  change (filter _ _).length = m - (filter _ _).length
  omega

theorem left_of_lt (hm : m < all.length) : left all p m = kept all p m ++ all[m] :: all.drop (m + 1) := by
  rw [left, drop_eq_getElem_cons hm]

theorem getElem_left (hm : m < all.length) : (left all p m)[m - (removed all p m).length]? = some all[m] := by
  rw [left_of_lt hm, ← length_kept hm.le, getElem?_append_right (le_refl _), Nat.sub_self]
  rfl

theorem eraseIdx_left (hm : m < all.length) (hp : p all[m] = true) :
    (left all p m).eraseIdx (m - (removed all p m).length) = left all p (m + 1) := by
  rw [left_of_lt hm, ← length_kept hm.le, eraseIdx_append_of_length_le (le_refl _), Nat.sub_self, left,
    kept_succ hm, if_pos hp]
  rfl

theorem left_succ_of_kept (hm : m < all.length) (hp : p all[m] = false) : left all p (m + 1) = left all p m := by
  rw [left_of_lt hm, left, kept_succ hm, hp, if_neg Bool.false_ne_true, append_assoc]
  rfl

theorem left_length : left all p all.length = all.filter fun c => !p c := by
  rw [left, drop_length, append_nil, kept, take_length]

theorem getElem_keptNumbers (hm : m ≤ all.length) :
    (keptNumbers all p m).map (fun j => all[j]?) = (kept all p m).map some := by
  induction m with
  | zero => rfl
  | succ m ih =>
    rw [keptNumbers_succ hm, kept_succ hm]
    split
    · exact ih (Nat.le_of_succ_le hm)
    · rw [map_append, map_append, ih (Nat.le_of_succ_le hm), map_singleton, map_singleton, getElem?_eq_getElem hm]

theorem sublist_removed : (removed all p m).Sublist all :=
  filter_sublist.trans (take_sublist m all)

theorem sublist_left : (left all p m).Sublist all := by
  have h : (left all p m).Sublist (all.take m ++ all.drop m) := filter_sublist.append_right _
  rwa [take_append_drop] at h

variable {r : Carried U} {arg : Carried U → U}

theorem mem_of_removed (hr : r ∈ removed all p m) : r ∈ all :=
  mem_of_mem_take (mem_filter.mp hr).1

theorem index_eq (hnodup : (all.map arg).Nodup) {i j : Nat} (hi : i < all.length) (hj : j < all.length)
    (h : arg all[i] = arg all[j]) : i = j :=
  (Nodup.of_map arg hnodup).getElem_inj_iff.mp
    (inj_on_of_nodup_map hnodup (getElem_mem hi) (getElem_mem hj) h)

theorem ne_of_removed (hnodup : (all.map arg).Nodup) (hm : m < all.length) (hr : r ∈ removed all p m) :
    arg r ≠ arg all[m] := by
  obtain ⟨j, hj, rfl⟩ := getElem_of_mem (mem_filter.mp hr).1
  rw [getElem_take]
  intro heq
  have hjm : j < m := (length_take_le m all).trans_lt' hj
  have hlt : j < all.length := hjm.trans hm
  exact absurd (index_eq hnodup hlt hm heq) hjm.ne

theorem assign_kept [DecidableEq U] {D : Type} {q : Carried U → Bool} {dst : Carried U → U} {val val' : Carried U → D}
    {env env' : U → D} {v : U} (hnodup : (all.map dst).Nodup) (hv : ∀ c ∈ all.filter q, dst c ≠ v)
    (henv : env' v = env v) (hval : ∀ c ∈ all, q c = false → val' c = val c) :
    Straightline.assign (all.filter fun c => !q c) dst val' env' v = Straightline.assign all dst val env v := by
  by_cases hmem : ∃ c ∈ all, dst c = v
  · obtain ⟨c, hc, rfl⟩ := hmem
    have hfalse : q c = false := by
      by_contra htrue
      exact hv c (mem_filter.mpr ⟨hc, Bool.not_eq_false _ ▸ htrue⟩) rfl
    have hkept : c ∈ all.filter fun c => !q c := mem_filter.mpr ⟨hc, by rw [hfalse]; rfl⟩
    rw [assign_of_mem hnodup hc, assign_of_mem (hnodup.sublist (filter_sublist.map _)) hkept, hval c hc hfalse]
  · have hne : ∀ c ∈ all, dst c ≠ v := fun c hc heq => hmem ⟨c, hc, heq⟩
    rw [assign_of_ne hne, assign_of_ne fun c hc => hne c (mem_filter.mp hc).1, henv]

theorem getElem_left_of_kept {j : Nat} (hj : j < all.length) (hm : m ≤ all.length)
    (hkept : ∀ i (hi : i < all.length), i ≤ j → i < m → p all[i] = false) :
    (left all p m)[j]? = some all[j] ∧ (j < m → j < (kept all p m).length) := by
  induction m with
  | zero =>
    refine ⟨?_, fun h => absurd h (Nat.not_lt_zero j)⟩
    change ([] ++ all.drop 0)[j]? = _
    rw [nil_append, drop_zero, getElem?_eq_getElem hj]
  | succ m ih =>
    have hm : m < all.length := hm
    obtain ⟨hget, hlt⟩ := ih hm.le fun i hi hij him => hkept i hi hij (Nat.lt_succ_of_lt him)
    cases hp : p all[m] with
    | true =>
      have hjm : j < m := by
        by_contra hle
        have hfalse := hkept m hm (Nat.le_of_not_lt hle) (Nat.lt_succ_self m)
        rw [hp] at hfalse
        cases hfalse
      rw [← eraseIdx_left hm hp, ← length_kept hm.le, getElem?_eraseIdx_of_lt (hlt hjm), kept_succ hm, if_pos hp]
      exact ⟨hget, fun _ => hlt hjm⟩
    | false =>
      rw [left_succ_of_kept hm hp, kept_succ hm, hp, if_neg Bool.false_ne_true, length_append, length_singleton]
      refine ⟨hget, fun hjm => ?_⟩
      rcases Nat.lt_succ_iff_lt_or_eq.mp hjm with hjm | rfl
      · exact Nat.lt_succ_of_lt (hlt hjm)
      · have hlen := length_kept (p := p) hm.le
        have hnone : removed all p j = [] := by
          rw [removed, filter_eq_nil_iff]
          intro c hc
          obtain ⟨i, hi, rfl⟩ := getElem_of_mem hc
          have hij : i < j := (length_take_le j all).trans_lt' hi
          rw [getElem_take, hkept i (hij.trans hm) hij.le (Nat.lt_succ_of_lt hij)]
          exact Bool.false_ne_true
        rw [hnone] at hlen
        rw [hlen]
        exact Nat.lt_succ_self j

theorem finish_carried (all : List (Carried U)) (p : Carried U → Bool) {W : Type} (f : Carried U → Carried W)
    (g : U → W) (hoperand : ∀ c, (f c).operand = g c.operand) (hres : ∀ c, (f c).result = g c.result) :
    zipWith (fun opOperand (c : Carried W) => match (all.map (Carried.map g))[opOperand]? with
      | some o => { c with operand := o.operand, result := o.result }
      | none => c) (keptNumbers all p all.length) ((left all p all.length).map f) =
    (all.filter fun c => !p c).map f := by
  have hkept : left all p all.length = kept all p all.length := by rw [left_length, kept, take_length]
  have hnumbers : zipWith (fun opOperand (c : Carried W) => match (all.map (Carried.map g))[opOperand]? with
      | some o => { c with operand := o.operand, result := o.result }
      | none => c) (keptNumbers all p all.length) ((left all p all.length).map f) =
    zipWith (fun (o : Option (Carried U)) (c : Carried W) => match o with
      | some o => { c with operand := g o.operand, result := g o.result }
      | none => c) ((keptNumbers all p all.length).map fun j => all[j]?) ((left all p all.length).map f) := by
    rw [zipWith_map_left]
    congr 1
    funext j c
    rw [getElem?_map]
    cases all[j]? with
    | none | some o => rfl
  rw [hnumbers, getElem_keptNumbers le_rfl, hkept, zipWith_map, zipWith_self, ← left_length, hkept]
  refine map_congr_left fun c _ => ?_
  change { f c with operand := g c.operand, result := g c.result } = f c
  rw [← hoperand, ← hres]

end Left

theorem foldlM_range {β : Type} {step : β → Nat → Option β} {state : Nat → β} {n : Nat}
    (hstep : ∀ m < n, step (state m) m = some (state (m + 1))) :
    (range n).foldlM step (state 0) = some (state n) := by
  induction n with
  | zero => rfl
  | succ n ih =>
    rw [range_succ, foldlM_append, ih fun m hm => hstep m (Nat.lt_succ_of_lt hm)]
    exact (bind_pure _).trans (hstep n (Nat.lt_succ_self n))

/-! ### Values yielded as they are -/

namespace WhileSimplify

variable (hoisting : Hoisting V) (w : WhileOp α V)

def removes (c : Carried V) : Bool := canHoist hoisting w c.operand && decide (c.bodyArg = c.yield)

/-- Where the uses of an argument are when `rs` have been removed. -/
def inBody (rs : List (Carried V)) : V → V := Straightline.assign rs Carried.bodyArg Carried.operand id

def inCond (rs : List (Carried V)) : V → V := Straightline.assign rs Carried.condArg Carried.operand id

/-- The loop when the first `m` values have been looked at. -/
def stateAt (m : Nat) : Removal α V :=
  let rs := removed w.loop.carried (removes hoisting w) m
  ⟨[], (left w.loop.carried (removes hoisting w) m).map fun c => { c with yield := inBody rs c.yield },
    w.loop.condOps.map (Instr.rename id (inCond rs)), inCond rs w.loop.test,
    w.loop.bodyOps.map (Instr.rename id (inBody rs)), keptNumbers w.loop.carried (removes hoisting w) m, rs.length⟩

variable {hoisting w} {rs : List (Carried V)} {c : Carried V} {m : Nat}

theorem replaceAllUsesWith_assign {arg : Carried V → V} (hrs : ∀ r ∈ rs, r.operand ≠ arg c ∧ arg r ≠ arg c) (v : V) :
    replaceAllUsesWith (arg c) c.operand (Straightline.assign rs arg Carried.operand id v) =
      Straightline.assign (rs ++ [c]) arg Carried.operand id v := by
  rw [Straightline.assign, Straightline.assign, find?_append]
  cases hfind : rs.find? fun r => arg r = v with
  | some r => exact if_neg (hrs r (mem_of_find?_eq_some hfind)).1
  | none =>
    by_cases hv : arg c = v
    · simp [replaceAllUsesWith, hv]
    · simp [replaceAllUsesWith, hv, Ne.symm hv]

theorem step_stateAt (hw : w.WellFormed) (hm : m < w.loop.carried.length) :
    step hoisting w (stateAt hoisting w m) m = some (stateAt hoisting w (m + 1)) := by
  set rs := removed w.loop.carried (removes hoisting w) m with hrs
  have hc : w.loop.carried[m] ∈ w.loop.carried := getElem_mem hm
  have hget : w.loop.carried[m]? = some w.loop.carried[m] := getElem?_eq_getElem hm
  have hleft : (stateAt hoisting w m).carried[m - (stateAt hoisting w m).deleted]? =
      some { w.loop.carried[m] with yield := inBody rs w.loop.carried[m].yield } := by
    change ((left w.loop.carried (removes hoisting w) m).map _)[m - rs.length]? = _
    rw [getElem?_map, getElem_left hm]
    rfl
  have hbody : ∀ r ∈ rs, r.operand ≠ w.loop.carried[m].bodyArg ∧ r.bodyArg ≠ w.loop.carried[m].bodyArg :=
    fun r hr => ⟨(WhileOp.bodyArg_ne (hw.operand_outside r (mem_of_removed hr)) hc).symm,
      ne_of_removed hw.nodup_bodyArg hm hr⟩
  have hcond : ∀ r ∈ rs, r.operand ≠ w.loop.carried[m].condArg ∧ r.condArg ≠ w.loop.carried[m].condArg :=
    fun r hr => ⟨(WhileOp.condArg_ne (hw.operand_outside r (mem_of_removed hr)) hc).symm,
      ne_of_removed hw.nodup_condArg hm hr⟩
  have hyield : w.loop.carried[m].bodyArg = inBody rs w.loop.carried[m].yield ↔
      w.loop.carried[m].bodyArg = w.loop.carried[m].yield := by
    by_cases hmem : ∃ r ∈ rs, r.bodyArg = w.loop.carried[m].yield
    · obtain ⟨r, hr, hry⟩ := hmem
      have hnodup : (rs.map Carried.bodyArg).Nodup := hw.nodup_bodyArg.sublist (sublist_removed.map _)
      rw [inBody, ← hry, assign_of_mem hnodup hr]
      exact iff_of_false (hbody r hr).1.symm (hbody r hr).2.symm
    · rw [inBody, assign_of_ne fun r hr heq => hmem ⟨r, hr, heq⟩]
      rfl
  simp only [step, hget, hleft, bind_eq_bind, bind_some, hyield]
  cases hremoves : removes hoisting w w.loop.carried[m] with
  | true =>
    have hif := hremoves
    rw [removes, Bool.and_eq_true, decide_eq_true_iff] at hif
    have hsucc : removed w.loop.carried (removes hoisting w) (m + 1) = rs ++ [w.loop.carried[m]] := by
      rw [removed_succ hm, if_pos hremoves]
    have hinBody : replaceAllUsesWith w.loop.carried[m].bodyArg w.loop.carried[m].operand ∘ inBody rs =
        inBody (rs ++ [w.loop.carried[m]]) := funext (replaceAllUsesWith_assign hbody)
    have hinCond : replaceAllUsesWith w.loop.carried[m].condArg w.loop.carried[m].operand ∘ inCond rs =
        inCond (rs ++ [w.loop.carried[m]]) := funext (replaceAllUsesWith_assign hcond)
    have hrename : ∀ (is : List (Instr (Op α) V)) (use use' : V → V),
        (is.map (Instr.rename id use)).map (Instr.rename id use') = is.map (Instr.rename id (use' ∘ use)) := by
      intro is use use'
      rw [List.map_map]
      exact map_congr_left fun i _ => i.rename_rename
    rw [if_pos hif, stateAt, stateAt, hsucc, ← hinBody, ← hinCond, ← hrename, ← hrename]
    congr 2
    · rw [List.map_map, eraseIdx_map, eraseIdx_left hm hremoves]
      rfl
    · rw [keptNumbers_succ hm, if_pos hremoves]
    · rw [length_append, length_singleton]
  | false =>
    have hif := hremoves
    rw [removes, Bool.and_eq_false_iff, decide_eq_false_iff_not] at hif
    have hsucc : removed w.loop.carried (removes hoisting w) (m + 1) = rs := by
      rw [removed_succ hm, hremoves, if_neg Bool.false_ne_true]
    have hnot : ¬(canHoist hoisting w w.loop.carried[m].operand = true ∧
        w.loop.carried[m].bodyArg = w.loop.carried[m].yield) := by
      rintro ⟨hhoist, hsame⟩
      rcases hif with hif | hif
      · exact Bool.false_ne_true (hif.symm.trans hhoist)
      · exact hif hsame
    rw [if_neg hnot, stateAt, stateAt, hsucc, left_succ_of_kept hm hremoves, keptNumbers_succ hm, hremoves,
      if_neg Bool.false_ne_true]
    rfl

theorem stateAt_zero : stateAt hoisting w 0 =
    ⟨[], w.loop.carried, w.loop.condOps, w.loop.test, w.loop.bodyOps, [], 0⟩ := by
  have hrename : ∀ is : List (Instr (Op α) V), is.map (Instr.rename id id) = is := fun is =>
    (map_congr_left fun i _ => i.rename_id).trans is.map_id
  change (⟨[], w.loop.carried.map id, w.loop.condOps.map (Instr.rename id id), w.loop.test,
    w.loop.bodyOps.map (Instr.rename id id), [], 0⟩ : Removal α V) = _
  rw [List.map_id, hrename, hrename]

theorem matchAndRewrite_eq {p : Program (Op α) V} (hw : w.WellFormed) (h : matchAndRewrite hoisting w = some p) :
    let rs := w.loop.carried.filter (removes hoisting w)
    p = ⟨[], ⟨(w.loop.carried.filter fun c => !removes hoisting w c).map fun c => { c with yield := inBody rs c.yield },
      w.loop.condOps.map (Instr.rename id (inCond rs)), inCond rs w.loop.test,
      w.loop.bodyOps.map (Instr.rename id (inBody rs))⟩, []⟩ := by
  have hstep : ∀ m < w.loop.carried.length, step hoisting w (stateAt hoisting w m) m =
      some (stateAt hoisting w (m + 1)) := fun m hm => step_stateAt hw hm
  have hfold := foldlM_range hstep
  rw [stateAt_zero] at hfold
  rw [matchAndRewrite, hfold, bind_some, Removal.finish] at h
  split at h
  · cases h
  · cases h
    have hrs : removed w.loop.carried (removes hoisting w) w.loop.carried.length =
        w.loop.carried.filter (removes hoisting w) := by rw [removed, take_length]
    have hid : w.loop.carried.map (Carried.map id) = w.loop.carried := map_id _
    have hcarried := finish_carried w.loop.carried (removes hoisting w) (fun c => { c with
      yield := inBody (w.loop.carried.filter (removes hoisting w)) c.yield }) id (fun _ => rfl) (fun _ => rfl)
    rw [hid] at hcarried
    simp only [stateAt, hrs, hcarried]

section

variable {p : Program (Op α) V} {env σ τ e : V → Val α} {k : Nat}

theorem entering_removed (hw : w.WellFormed) (hσ : w.loop.entering (semantics α) env k = some σ)
    (hc : c ∈ w.loop.carried) (hremoves : removes hoisting w c = true) : σ c.result = env c.operand := by
  rw [removes, Bool.and_eq_true, decide_eq_true_iff] at hremoves
  induction k generalizing σ with
  | zero =>
    cases hσ
    exact WhileOp.start_result hw hc
  | succ k ih =>
    obtain ⟨σ₀, hσ₀, -, hnext⟩ := Loop.entering_succ_eq_some.mp hσ
    obtain ⟨e, he, -⟩ := map_eq_some_iff.mp hnext
    rw [WhileOp.next_result hw he hnext hc, ← hremoves.2, WhileOp.bodyEnv_bodyArg hw he hc, ih hσ₀]

theorem run_removed {region : List (Instr (Op α) V)} (arg : Carried V → V) (hw : w.WellFormed)
    (hnodup : (w.loop.carried.map arg).Nodup) (hops : ∀ i ∈ region, ∀ c ∈ w.loop.carried, i.result ≠ arg c)
    (hargs : ∀ v, w.definedOutside v = true → ∀ c ∈ w.loop.carried, arg c ≠ v)
    (houts : ∀ v, w.definedOutside v = true → ∀ i ∈ region, i.result ≠ v)
    (hscope : ∀ i ∈ region, ∀ v ∈ i.operands, ∀ c ∈ w.loop.carried, c.result ≠ v)
    (hσ : w.loop.entering (semantics α) env k = some σ)
    (hτ : ∀ v, (∀ c ∈ w.loop.carried.filter (removes hoisting w), c.result ≠ v) → τ v = σ v)
    (he : run (semantics α) region (Straightline.assign w.loop.carried arg (fun c => σ c.result) σ) = some e) :
    ∃ e', run (semantics α) (region.map (Instr.rename id
        (Straightline.assign (w.loop.carried.filter (removes hoisting w)) arg Carried.operand id)))
        (Straightline.assign (w.loop.carried.filter fun c => !removes hoisting w c) arg (fun c => τ c.result) τ) = some e' ∧
      ∀ v, (∀ c ∈ w.loop.carried, c.result ≠ v) →
        e' (Straightline.assign (w.loop.carried.filter (removes hoisting w)) arg Carried.operand id v) = e v := by
  have hnodup_of : ∀ q : Carried V → Bool, ((w.loop.carried.filter q).map arg).Nodup := fun q =>
    hnodup.sublist (filter_sublist.map _)
  -- the arguments removed and the others
  have hremoved : ∀ c ∈ w.loop.carried, removes hoisting w c = true →
      Straightline.assign (w.loop.carried.filter (removes hoisting w)) arg Carried.operand id (arg c) = c.operand :=
    fun c hc hr => assign_of_mem (hnodup_of _) (mem_filter.mpr ⟨hc, hr⟩)
  have hother : ∀ v, (∀ c ∈ w.loop.carried, removes hoisting w c = true → arg c ≠ v) →
      Straightline.assign (w.loop.carried.filter (removes hoisting w)) arg Carried.operand id v = v :=
    fun v hv => assign_of_ne fun c hc => hv c (mem_filter.mp hc).1 (mem_filter.mp hc).2
  refine run_rename hscope (fun i hi v hv => ?_) (fun v hv => ?_) he
  · by_cases hmem : ∃ c ∈ w.loop.carried, removes hoisting w c = true ∧ arg c = v
    · obtain ⟨c, hc, hr, rfl⟩ := hmem
      rw [hremoved c hc hr]
      exact iff_of_false (houts _ (hw.operand_outside c hc) i hi).symm (hops i hi c hc).symm
    · rw [hother v fun c hc hr heq => hmem ⟨c, hc, hr, heq⟩]
      rfl
  · by_cases hmem : ∃ c ∈ w.loop.carried, arg c = v
    · obtain ⟨c, hc, rfl⟩ := hmem
      rw [assign_of_mem hnodup hc]
      cases hr : removes hoisting w c with
      | true =>
        have hout := hw.operand_outside c hc
        rw [hremoved c hc hr, assign_of_ne fun c' hc' => hargs _ hout c' (mem_filter.mp hc').1,
          hτ _ fun c' hc' => WhileOp.result_ne hout (mem_filter.mp hc').1,
          WhileOp.entering_outside hσ hout, entering_removed hw hσ hc hr]
      | false =>
        have hne : ∀ c' ∈ w.loop.carried, removes hoisting w c' = true → c' ≠ c := by
          rintro c' - hr' rfl
          rw [hr] at hr'
          cases hr'
        rw [hother _ fun c' hc' hr' heq => hne c' hc' hr' (inj_on_of_nodup_map hnodup hc' hc heq),
          assign_of_mem (hnodup_of _) (mem_filter.mpr ⟨hc, by rw [hr]; rfl⟩)]
        refine hτ _ fun c' hc' heq => ?_
        obtain ⟨hc', hr'⟩ := mem_filter.mp hc'
        exact hne c' hc' hr' (inj_on_of_nodup_map hw.nodup_result hc' hc heq)
    · have hne : ∀ c ∈ w.loop.carried, arg c ≠ v := fun c hc heq => hmem ⟨c, hc, heq⟩
      rw [hother v fun c hc _ => hne c hc, assign_of_ne fun c hc => hne c (mem_filter.mp hc).1,
        assign_of_ne hne, hτ v fun c hc => hv c (mem_filter.mp hc).1]

/-- Where the values are once the loop is replaced. -/
def uses (hoisting : Hoisting V) (w : WhileOp α V) : Uses V V :=
  let rs := w.loop.carried.filter (removes hoisting w)
  ⟨inCond rs, inBody rs, Straightline.assign rs Carried.result Carried.operand id⟩

theorem preservesTo_matchAndRewrite (hw : w.WellFormed) (h : matchAndRewrite hoisting w = some p)
    (env : V → Val α) (N : Nat) : PreservesTo (semantics α) w.loop p (uses hoisting w) env env N := by
  obtain rfl := matchAndRewrite_eq hw h
  have hnodup := hw.nodup_result
  refine preservesTo_of_simulates (R := fun _ σ τ => ∀ v,
    (∀ c ∈ w.loop.carried.filter (removes hoisting w), c.result ≠ v) → τ v = σ v) rfl ?_ ?_ ?_ ?_
  · intro v hv
    change Straightline.assign (map _ _) Carried.result (fun c => env c.operand) env v = _
    rw [Straightline.assign_map]
    exact assign_kept hnodup hv rfl fun _ _ _ => rfl
  · intro k _ σ τ e hσ hτ he
    obtain ⟨e', he', hagree⟩ := run_removed Carried.condArg hw hw.nodup_condArg
      (fun i hi c hc => hw.condOp_ne_condArg hi hc) (fun v hv c hc => WhileOp.condArg_ne hv hc)
      (fun v hv i hi => WhileOp.condOp_ne hv hi)
      (fun i hi v hv c hc => hw.result_ne_of_condScope (hw.cond_scope i hi v hv) hc) hσ hτ he
    refine ⟨e', ?_, hagree _ fun c hc => hw.result_ne_of_condScope hw.test_scope hc, hagree⟩
    rw [Loop.condEnv, Straightline.assign_map]
    exact he'
  · intro k _ σ τ e hσ hτ _ he
    obtain ⟨e', he', hagree⟩ := run_removed Carried.bodyArg hw hw.nodup_bodyArg
      (fun i hi c hc => hw.bodyOp_ne_bodyArg hi hc) (fun v hv c hc => WhileOp.bodyArg_ne hv hc)
      (fun v hv i hi => WhileOp.bodyOp_ne hv hi)
      (fun i hi v hv c hc => hw.result_ne_of_bodyScope (hw.body_scope i hi v hv) hc) hσ hτ he
    refine ⟨e', ?_, hagree, fun _ v hv => ?_⟩
    · rw [Loop.bodyEnv, Straightline.assign_map]
      exact he'
    · rw [Straightline.assign_map]
      exact assign_kept hnodup hv (hτ v hv) fun c hc _ =>
        hagree _ fun c' hc' => hw.result_ne_of_bodyScope (hw.yield_scope c hc) hc'
  · intro n _ σ τ hσ hτ
    refine ⟨τ, rfl, fun v => ?_⟩
    obtain ⟨hend, -⟩ := Loop.exits_eq_some.mp hσ
    by_cases hmem : ∃ c ∈ w.loop.carried.filter (removes hoisting w), c.result = v
    · obtain ⟨c, hc, rfl⟩ := hmem
      obtain ⟨hmem, hr⟩ := mem_filter.mp hc
      have hout := hw.operand_outside c hmem
      change τ (Straightline.assign _ Carried.result Carried.operand id c.result) = _
      rw [assign_of_mem (hnodup.sublist (filter_sublist.map _)) hc,
        hτ _ fun c' hc' => WhileOp.result_ne hout (mem_filter.mp hc').1, WhileOp.entering_outside hend hout,
        entering_removed hw hend hmem hr]
    · have hne : ∀ c ∈ w.loop.carried.filter (removes hoisting w), c.result ≠ v := fun c hc heq => hmem ⟨c, hc, heq⟩
      change τ (Straightline.assign _ Carried.result Carried.operand id v) = _
      rw [assign_of_ne hne]
      exact hτ v hne

end

end WhileSimplify

end EnzymeJax.WhileLoop
