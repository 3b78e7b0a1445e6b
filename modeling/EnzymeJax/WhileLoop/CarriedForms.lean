import EnzymeJax.HLOOpt.TransposeSlices
import EnzymeJax.Library.Beside
import EnzymeJax.WhileLoop.Typing

/-!
# Carried values that are transposed, wrapped or concatenated

`TransposeWhile` carries the transpose of a value whose only use after the loop is a transpose, `WhileWrap` what is
wrapped or extended in the end of the body, and `WhileConcat` the middle of a concatenation of three slices. For
the last two the initial value has to have the same form.
-/

namespace EnzymeJax.WhileLoop

open Tensor Straightline List Option Function

variable {α V : Type} [DecidableEq V]

theorem mem_elim {β γ : Type} {o : Option β} {f : β → List γ} {i : γ} :
    i ∈ o.elim [] f ↔ ∃ b, o = some b ∧ i ∈ f b := by
  cases o with
  | none => exact iff_of_false not_mem_nil nofun
  | some b => exact ⟨fun h => ⟨b, rfl, h⟩, fun ⟨b', hb, h⟩ => some.inj hb ▸ h⟩

/-! ### Transposes -/

section

variable {perm : List Nat} {x t : Tensor α}

theorem transpose_getInversePermutation (h : transpose perm x = some t) :
    ∃ z, transpose (TransposeSlices.getInversePermutation perm) t = some z ∧ Same z x := by
  have hperm := perm_of_transpose h
  have hshape := permutes_shape h
  have hinverse := TransposeSlices.getInversePermutation_perm hperm
  obtain ⟨hlen, hget⟩ := TransposeSlices.getInversePermutation_spec hperm
  have hz : transpose (TransposeSlices.getInversePermutation perm) t = some _ :=
    if_pos (hshape.length_left.symm ▸ hinverse)
  have hback := permutes_shape hz
  refine ⟨_, hz, same_of_read (ext_getElem? fun d => ?_) fun c hc => ?_⟩
  · by_cases hd : d < perm.length
    · have hlt : coord (TransposeSlices.getInversePermutation perm) d < perm.length := hget d hd ▸ idxOf_lt hperm hd
      rw [hback.get_eq d (hlen.symm ▸ hd), hshape.get_eq _ hlt, hget d hd, coord_idxOf hperm hd]
    · rw [getElem?_eq_none (hback.length_left ▸ hlen.symm ▸ not_lt.mp hd),
        getElem?_eq_none (hshape.length_right ▸ not_lt.mp hd)]
  · rw [read_transpose hz, read_transpose h]
    refine read_congr x fun e he => ?_
    have he' : e < perm.length := hshape.length_right ▸ he
    rw [comp_apply, comp_apply, ← hget e he', idxOf_coord hinverse he']

end

theorem eval_transpose_inverse {perm : List Nat} {x y : Val α} (h : (Op.transpose perm).eval [x] = some y) :
    (Op.transpose (TransposeSlices.getInversePermutation perm)).eval [y] = some x := by
  obtain ⟨t, ht, hsame⟩ := Tensor.Value.lift_eq_some.mp h
  obtain ⟨z, hz, hzx⟩ := transpose_getInversePermutation ht
  obtain ⟨z', hz', hzz⟩ := TransposeSlices.transpose_of_same hsame.symm hz
  exact Tensor.Value.lift_eq_some.mpr ⟨z', hz', hzz.trans hzx⟩

theorem exists_eval_transpose {perm : List Nat} {x : Val α} (hperm : perm.Perm (range x.shape.length)) :
    ∃ y, (Op.transpose perm).eval [x] = some y :=
  ⟨_, Tensor.Value.lift_eq_some.mpr ⟨_, if_pos hperm, (Tensor.Value.same_ofTensor _).symm⟩⟩

namespace TransposeWhile

variable (w : WhileOp α V) (users : V → List (Op α))

/-- The permutation of the transpose that is the only user of a result. -/
def outerTranspose (c : Carried V) : Option (List Nat) :=
  match users c.result with
  | [.transpose perm] => some perm
  | _ => none

def candidate (c : Carried V) : Bool := (outerTranspose users c).isSome

def getPermutation (c : Carried V) : List Nat := (outerTranspose users c).getD []

def yields (c : Carried V) : List (Instr (Op α) (FormName V)) :=
  [⟨.yielded c.result 0, .transpose (getPermutation users c), [.old c.yield]⟩]

def carrying : Carrying (Op α) V where
  before c := [⟨.initial c.result 0, .transpose (getPermutation users c), [.old c.operand]⟩]
  operand c := .initial c.result 0
  condHead := []
  bodyHead := []
  rebuild c v :=
    [⟨.old v, .transpose (TransposeSlices.getInversePermutation (getPermutation users c)), [.form v]⟩]
  body := renamedBody w.loop (candidate users) (yields users)
  yield c := .yielded c.result 0
  after := []

def matchAndRewrite : Option (Program (Op α) (FormName V)) :=
  if w.loop.carried.any (candidate users) then some (carryAs w.loop (candidate users) (carrying w users)) else none

def OuterTransposesOk (typeOf : V → ValueType) : Prop :=
  ∀ c ∈ w.loop.carried, candidate users c = true →
    (getPermutation users c).Perm (List.range (typeOf c.operand).shape.length)

/-- The results that were not transposed are as they were, and the others are what their transposes were. -/
def ResultsPreserved (σ : V → Val α) (τ : FormName V → Val α) : Prop :=
  (∀ v, (∀ c ∈ w.loop.carried, candidate users c = true → c.result ≠ v) → τ (.old v) = σ v) ∧
    ∀ c ∈ w.loop.carried, ∀ perm, outerTranspose users c = some perm →
      (Op.transpose perm).eval [σ c.result] = some (τ (.form c.result))

variable {w users} {typeOf : V → ValueType} {env : V → Val α} {env' : FormName V → Val α}
  {p : Program (Op α) (FormName V)}

omit [DecidableEq V] in
theorem named : (carrying w users).Named :=
  ⟨fun _ _ hi => ⟨0, by rw [mem_singleton.mp hi]⟩, fun _ => .inr ⟨0, rfl⟩, nofun, nofun,
    fun _ _ _ hi => .inl (by rw [mem_singleton.mp hi])⟩

section

variable (N : Nat) (hw : w.WellFormed) (htyped : w.WellTyped typeOf env) (hperms : OuterTransposesOk w users typeOf)

include hw htyped hperms

theorem computes : (carrying w users).Computes (semantics α) w.loop (candidate users)
      (fun v => w.definedOutside v = true) env N
      (.ofRep fun c _ x y => (Op.transpose (getPermutation users c)).eval [y] = some x) := by
  have hdefined : ∀ c ∈ w.loop.carried, candidate users c = true → ∀ x : Val α, (typeOf c.operand).Has x →
      ∃ y, (Op.transpose (getPermutation users c)).eval [x] = some y := by
    intro c hc hcand x hx
    have hperm := hperms c hc hcand
    rw [← hx.1] at hperm
    exact exists_eval_transpose hperm
  constructor
  case condHead => exact fun _ _ _ _ _ _ e _ _ => ⟨e, rfl, trivial⟩
  case bodyHead => exact fun _ _ _ _ _ _ e _ _ => ⟨e, rfl, trivial⟩
  case rebuild =>
    intro k _ σ _ c _ _ v e _ _ _ hrep
    obtain ⟨e', hrun, hval⟩ : ∃ e', run (semantics α) ((carrying w users).rebuild c v) e = some e' ∧
        e' (.old v) = σ c.result := exists_run_one (eval_transpose_inverse hrep)
    exact ⟨e', hrun, fun _ => hval⟩
  case before =>
    intro c hc hcand e he
    obtain ⟨x, hx⟩ := hdefined c hc hcand _ (htyped.outside _ (hw.operand_outside c hc))
    have heval : (Op.transpose (getPermutation users c)).eval ([FormName.old c.operand].map e) = some x := by
      rwa [map_singleton, he]
    obtain ⟨e', hrun, hval⟩ : ∃ e', run (semantics α) ((carrying w users).before c) e = some e' ∧
        e' (.initial c.result 0) = x := exists_run_one heval
    exact ⟨e', hrun, hval ▸ hx, trivial⟩
  case body =>
    intro k _ σ e hσ _ he e₀ hold _ _
    obtain ⟨e', he', hagree, hyields⟩ : ∃ e', run (semantics α) (renamedBody w.loop (candidate users) (yields users)) e₀ =
        some e' ∧ (∀ v, w.loop.Reads Carried.bodyArg (fun _ => True) v → e' (.old v) = e v) ∧
          ∀ c ∈ w.loop.carried, candidate users c = true →
            (Op.transpose (getPermutation users c)).eval [e c.yield] = some (e' (.yielded c.result 0)) := by
      refine run_renamedBody (R := fun c x y => (Op.transpose (getPermutation users c)).eval [y] = some x)
        hw.scoped w.loop.readsExact_true (fun c i hi => ⟨0, by rw [mem_singleton.mp hi]⟩) (fun _ => .inr ⟨0, rfl⟩)
        (fun c hc hcand e' hagree _ => ?_) hold he
      have hyield := htyped.has_bodyEnv hw hσ (fun c hc => htyped.has_entering hw hσ hc) he (hw.yield_scope c hc)
      rw [(htyped.carried c hc).2] at hyield
      obtain ⟨x, hx⟩ := hdefined c hc hcand _ hyield
      have heval : (Op.transpose (getPermutation users c)).eval ([FormName.old c.yield].map e') = some x := by
        rwa [map_singleton, hagree c.yield fun c' hc' => ⟨hw.result_ne_of_bodyScope (hw.yield_scope c hc) hc',
          fun _ => trivial⟩]
      obtain ⟨e'', hrun, hval⟩ : ∃ e'', run (semantics α) (yields users c) e' = some e'' ∧
          e'' (.yielded c.result 0) = x := exists_run_one heval
      exact ⟨e'', hrun, hval ▸ hx⟩
    exact ⟨e', he', hagree, fun c hc hcand _ => hyields c hc hcand⟩

theorem simulatesTo_matchAndRewrite (h : matchAndRewrite w users = some p)
    (henv : ∀ v, env' (.old v) = env v) :
    SimulatesTo (semantics α) w.loop p env env' N (fun _ => w.loop.Agrees .old) (fun _ => w.loop.Agrees .old)
      fun _ => ResultsPreserved w users := by
  obtain ⟨-, h⟩ := ite_none_right_eq_some.mp h
  cases h
  refine simulatesTo_carryAs hw.scoped w.loop.readsExact_true named (computes N hw htyped hperms) henv
    (fun _ _ _ h => w.loop.agrees_of_reads h) (fun _ _ _ h => w.loop.agrees_of_reads h) fun n _ σ τ _ hR =>
      ⟨τ, rfl, hR.kept, fun c hc perm hperm => ?_⟩
  have hcand : candidate users c = true := isSome_iff_exists.mpr ⟨perm, hperm⟩
  have hget : getPermutation users c = perm := by rw [getPermutation, hperm, getD_some]
  exact hget ▸ hR.forms c hc hcand

end

end TransposeWhile

/-! ### Wraps and extends -/

section

variable {dim : Nat} {lhs rhs start limit : Int} {x y : Tensor α} {pre post sl : List (Tensor α)}

theorem slice_concatenate (h : concatenate dim (pre ++ x :: post) = some y) :
    ∃ z, slice (sliceAlong dim (total dim pre) (total dim pre + coord x.shape dim) y.shape) y = some z ∧ Same z x := by
  obtain ⟨hd, -, hfits, hpieces⟩ := pieces_of_concatenate h
  have hx := hfits.along (mem_append_right pre mem_cons_self)
  have htotal : total dim (pre ++ x :: post) = total dim pre + (coord x.shape dim + total dim post) := by
    rw [total_append, total_cons]
  have hsize : coord y.shape dim = total dim (pre ++ x :: post) := coord_concatenate h
  obtain ⟨z, hz, halong⟩ := (Along.self hd).slice (total dim pre) (total dim pre + coord x.shape dim) hd
    (by omega) (by omega) (by omega)
  have hcount : ((total dim pre : Int) + coord x.shape dim - total dim pre).toNat = coord x.shape dim := by omega
  rw [hcount, Int.toNat_natCast] at halong
  refine ⟨z, hz, ⟨halong.shape_eq.trans hx.shape_eq.symm, fun idx hidx => ?_⟩⟩
  rw [halong.shape_eq] at hidx
  obtain ⟨hbase, hk, heq⟩ := exists_line hd hidx
  have hpiece := hpieces.get_eq _ hbase (total dim pre + coord idx dim) (by omega)
  rw [piece_middle (by omega) (by omega), Nat.add_sub_cancel_left, ← heq] at hpiece
  have hget := halong.get_eq _ hbase _ hk
  rw [← heq] at hget
  exact hget.trans (some.inj hpiece)

theorem total_border {n : Int} (hd : dim < x.shape.length) (hn : n = limit - start)
    (h : border (n ≠ 0) dim start limit x = some sl) : (total dim sl : Int) = n := by
  rw [border] at h
  split at h
  · obtain ⟨t, ht, rfl⟩ := map_eq_some_iff.mp h
    obtain ⟨hstart, hle, -, halong⟩ := along_of_slice hd ht
    rw [total_cons, total_nil, add_zero, halong.coord_shape hd, hn]
    omega
  · rename_i hzero
    cases h
    have hzero : n = 0 := by simpa using hzero
    rw [hzero, total_nil]
    rfl

theorem slice_borders {sl0 sl1 : List (Tensor α)} (h0 : (total dim sl0 : Int) = lhs) (h1 : (total dim sl1 : Int) = rhs)
    (h : concatenate dim (sl0 ++ x :: sl1) = some y) :
    ∃ z, slice (sliceAlong dim lhs (coord y.shape dim - rhs) y.shape) y = some z ∧ Same z x := by
  have hsize := coord_concatenate h
  rw [total_append, total_cons] at hsize
  have hlimit : (coord y.shape dim : Int) - rhs = total dim sl0 + coord x.shape dim := by omega
  rw [hlimit, ← h0]
  exact slice_concatenate h

end

namespace WhileWrap

/-- The operation that the pattern is for. -/
inductive Kind
  | wrap
  | extend

def Kind.create : Kind → Int → Int → Nat → Op α
  | wrap => .wrap
  | extend => .extend

structure Concat (V : Type) where
  lhs : Int
  rhs : Int
  dimension : Nat
  operand : V

variable (kind : Kind) (w : WhileOp α V) (typeOf : V → ValueType)

/-- The operation that makes what is yielded. -/
def getConcat (c : Carried V) : Option (Concat V) :=
  match kind, w.getDefiningOp w.loop.bodyOps c.yield with
  | .wrap, some (.wrap lhs rhs dimension, [operand]) => some ⟨lhs, rhs, dimension, operand⟩
  | .extend, some (.extend lhs rhs dimension, [operand]) => some ⟨lhs, rhs, dimension, operand⟩
  | _, _ => none

def candidate (c : Carried V) : Bool := (getConcat kind w c).isSome

/-- All of the operand but its borders. -/
def starts (shape : List Nat) (concat : Concat V) : List SliceDim :=
  sliceAlong concat.dimension concat.lhs (coord shape concat.dimension - concat.rhs) shape

def rebuild (c : Carried V) (v : V) : List (Instr (Op α) (FormName V)) :=
  (getConcat kind w c).elim [] fun concat =>
    [⟨.old v, kind.create concat.lhs concat.rhs concat.dimension, [.form v]⟩]

def carrying : Carrying (Op α) V where
  before c := (getConcat kind w c).elim [] fun concat =>
    [⟨.initial c.result 0, .slice (starts (typeOf c.operand).shape concat), [.old c.operand]⟩]
  operand c := .initial c.result 0
  condHead := []
  bodyHead := []
  rebuild := rebuild kind w
  body := renamedBody w.loop (candidate kind w) fun _ => []
  yield c := .old ((getConcat kind w c).elim c.yield Concat.operand)
  after := (w.loop.carried.filter (candidate kind w)).flatMap fun c => rebuild kind w c c.result

def matchAndRewrite : Option (Program (Op α) (FormName V)) :=
  if w.loop.carried.any (candidate kind w) then
    some (carryAs w.loop (candidate kind w) (carrying kind w typeOf)) else none

def InitiallyInForm (env : V → Val α) : Prop :=
  ∀ c ∈ w.loop.carried, ∀ concat, getConcat kind w c = some concat →
    ∃ x, (kind.create concat.lhs concat.rhs concat.dimension).eval [x] = some (env c.operand)

variable {kind w typeOf} {env e : V → Val α} {env' : FormName V → Val α} {p : Program (Op α) (FormName V)} {N : Nat}
  {c : Carried V} {concat : Concat V} {x y : Val α}

theorem candidate_iff : candidate kind w c = true ↔ ∃ concat, getConcat kind w c = some concat :=
  isSome_iff_exists

theorem getDefiningOp_eq (h : getConcat kind w c = some concat) : w.getDefiningOp w.loop.bodyOps c.yield =
    some (kind.create concat.lhs concat.rhs concat.dimension, [concat.operand]) := by
  unfold getConcat at h
  split at h
  · rename_i hdef
    cases h
    exact hdef
  · rename_i hdef
    cases h
    exact hdef
  · cases h

omit [DecidableEq V] in
theorem eval_slice (h : (kind.create concat.lhs concat.rhs concat.dimension).eval [x] = some y) :
    (Op.slice (starts y.shape concat)).eval [y] = some x := by
  have hborders : ∀ {t : Tensor (Elem α)}, Same t y.tensor →
      (∃ z, slice (starts t.shape concat) t = some z ∧ Same z x.tensor) →
        (Op.slice (starts y.shape concat)).eval [y] = some x := by
    intro t hsame ⟨z, hz, hzx⟩
    obtain ⟨z', hz', hzz⟩ := slice_of_same hsame hz
    exact Tensor.Value.lift_eq_some.mpr ⟨z', by rwa [Tensor.Value.shape, ← hsame.shape_eq], hzz.trans hzx⟩
  have hrank : ∀ {t : Tensor (Elem α)} {sl0 sl1 : List (Tensor (Elem α))},
      concatenate concat.dimension (sl0 ++ x.tensor :: sl1) = some t → concat.dimension < x.tensor.shape.length := by
    intro t sl0 sl1 ht
    obtain ⟨hd, -, hfits, -⟩ := pieces_of_concatenate ht
    rwa [hfits.length_shape (mem_append_right sl0 mem_cons_self)]
  cases kind with
  | wrap | extend =>
    obtain ⟨t, ht, hsame⟩ := Tensor.Value.lift_eq_some.mp h
    obtain ⟨sl0, hsl0, ht⟩ := bind_eq_some_iff.mp ht
    obtain ⟨sl1, hsl1, ht⟩ := bind_eq_some_iff.mp ht
    have hd := hrank ht
    exact hborders hsame (slice_borders (total_border hd (by omega) hsl0) (total_border hd (by omega) hsl1) ht)

theorem named : (carrying kind w typeOf).Named := by
  refine ⟨fun c i hi => ⟨0, ?_⟩, fun _ => .inr ⟨0, rfl⟩, nofun, nofun, fun c v i hi => .inl ?_⟩
  · obtain ⟨concat, -, hi⟩ := mem_elim.mp hi
    rw [mem_singleton.mp hi]
  · obtain ⟨concat, -, hi⟩ := mem_elim.mp hi
    rw [mem_singleton.mp hi]

theorem run_rebuild {v : V} {e : FormName V → Val α} (hconcat : getConcat kind w c = some concat)
    (h : (kind.create concat.lhs concat.rhs concat.dimension).eval [e (.form v)] = some y) :
    ∃ e', run (semantics α) (rebuild kind w c v) e = some e' ∧ e' (.old v) = y := by
  rw [rebuild, hconcat]
  exact exists_run_one h

section

variable (N : Nat) (hw : w.WellFormed) (henv : w.Holds env) (htyped : w.WellTyped typeOf env)
  (hinitial : InitiallyInForm kind w env)

include hw henv htyped hinitial

theorem computes : (carrying kind w typeOf).Computes (semantics α) w.loop (candidate kind w)
      (fun v => w.definedOutside v = true) env N
      (.ofRep fun c _ x y => ∀ concat, getConcat kind w c = some concat →
        (kind.create concat.lhs concat.rhs concat.dimension).eval [x] = some y) := by
  constructor
  case condHead => exact fun _ _ _ _ _ _ e _ _ => ⟨e, rfl, trivial⟩
  case bodyHead => exact fun _ _ _ _ _ _ e _ _ => ⟨e, rfl, trivial⟩
  case rebuild =>
    intro k _ σ _ c _ hcand v e _ _ _ hrep
    obtain ⟨concat, hconcat⟩ := candidate_iff.mp hcand
    obtain ⟨e', hrun, hval⟩ := run_rebuild hconcat (hrep concat hconcat)
    exact ⟨e', hrun, fun _ => hval⟩
  case before =>
    intro c hc hcand e he
    obtain ⟨concat, hconcat⟩ := candidate_iff.mp hcand
    obtain ⟨x, hx⟩ := hinitial c hc concat hconcat
    have heval : (Op.slice (starts (typeOf c.operand).shape concat)).eval ([FormName.old c.operand].map e) = some x := by
      rw [map_singleton, he, ← (htyped.outside _ (hw.operand_outside c hc)).1]
      exact eval_slice hx
    obtain ⟨e', hrun, hval⟩ : ∃ e', run (semantics α) ((carrying kind w typeOf).before c) e = some e' ∧
        e' (.initial c.result 0) = x := by
      change ∃ e', run _ ((getConcat kind w c).elim _ _) e = _ ∧ _
      rw [hconcat]
      exact exists_run_one heval
    refine ⟨e', hrun, fun concat' hconcat' => ?_, trivial⟩
    cases hconcat.symm.trans hconcat'
    rw [← hval] at hx
    exact hx
  case body =>
    intro k _ σ e hσ _ he e₀ hold _ _
    obtain ⟨e', he', hagree, hyields⟩ : ∃ e', run (semantics α) (renamedBody w.loop (candidate kind w) fun _ => []) e₀ =
        some e' ∧ (∀ v, w.loop.Reads Carried.bodyArg (fun _ => True) v → e' (.old v) = e v) ∧
          ∀ c ∈ w.loop.carried, candidate kind w c = true → ∀ concat, getConcat kind w c = some concat →
            (kind.create concat.lhs concat.rhs concat.dimension).eval [e' ((carrying kind w typeOf).yield c)] =
              some (e c.yield) := by
      refine run_renamedBody (R := fun c x y => ∀ concat, getConcat kind w c = some concat →
          (kind.create concat.lhs concat.rhs concat.dimension).eval [x] = some y) hw.scoped w.loop.readsExact_true
        (fun _ => nofun) (fun _ => .inl ⟨_, rfl⟩) (fun c _ _ e' hagree _ => ⟨e', rfl, fun concat hconcat => ?_⟩) hold he
      have heval := WhileOp.eval_definingOp hw henv hw.body_ordered he (fun v => WhileOp.bodyEnv_outside hσ he)
        (getDefiningOp_eq hconcat)
      have hscope := hw.bodyScope_of_definingOp (getDefiningOp_eq hconcat) _ mem_cons_self
      have hyield : e' ((carrying kind w typeOf).yield c) = e concat.operand := by
        change e' (.old ((getConcat kind w c).elim _ _)) = _
        rw [hconcat]
        exact hagree _ fun c' hc' => ⟨hw.result_ne_of_bodyScope hscope hc', fun _ => trivial⟩
      rw [hyield]
      exact heval
    exact ⟨e', he', hagree, fun c hc hcand _ => hyields c hc hcand⟩

/-- With initial values in the form, the loop that carries what is wrapped or extended has the same values. -/
theorem preservesTo_matchAndRewrite (h : matchAndRewrite kind w typeOf = some p) (henv' : ∀ v, env' (.old v) = env v) :
    PreservesTo (semantics α) w.loop p ⟨.old, .old, .old⟩ env env' N := by
  obtain ⟨-, h⟩ := ite_none_right_eq_some.mp h
  cases h
  refine (simulatesTo_carryAs hw.scoped w.loop.readsExact_true named (computes N hw henv htyped hinitial) henv'
    (fun _ _ _ h => w.loop.agrees_of_reads h) (fun _ _ _ h => w.loop.agrees_of_reads h)
    fun n _ σ τ _ hR => ?_).preservesTo
  refine run_results hw.scoped (fun c i hi => .inl ?_) hR.kept fun c hc hcand e _ _ _ hform => ?_
  · obtain ⟨concat, -, hi⟩ := mem_elim.mp hi
    rw [mem_singleton.mp hi]
  · obtain ⟨concat, hconcat⟩ := candidate_iff.mp hcand
    exact run_rebuild hconcat (hform ▸ hR.forms c hc hcand concat hconcat)

end

end WhileWrap

/-! ### Concatenations of three slices -/

namespace WhileConcat

/-- What an integer becomes in an `int`. -/
def int (n : Int) : Int := IntType.wrap ⟨32, false⟩ n

structure Candidate (V : Type) where
  dimension : Nat
  lhsSize : Int
  rhsSize : Int
  left : List SliceDim
  middle : List SliceDim
  -- the slice in the middle
  value : V

variable (w : WhileOp α V) (typeOf : V → ValueType) (usedElsewhere : V → Nat)

/-- The number of uses of a value, some of which are not in the loop. -/
def useCount (v : V) : Nat :=
  ((w.loop.condOps ++ w.loop.bodyOps).map fun i => i.operands.count v).sum +
    (w.loop.carried.map Carried.yield).count v + (w.loop.carried.map Carried.operand).count v +
      [w.loop.test].count v + usedElsewhere v

def getSlice (v : V) : Option (V × List SliceDim) :=
  match w.getDefiningOp w.loop.bodyOps v with
  | some (.slice dims, [operand]) => some (operand, dims)
  | _ => none

def dimAt (op : List SliceDim) (i : Nat) : SliceDim := op.getD i ⟨0, 0, 1⟩

/-- The slices agree in the other dimensions, with stride 1. -/
def legal (rank dimension : Nat) (op0 op : List SliceDim) : Prop :=
  ∀ i < rank, i ≠ dimension → (dimAt op0 i).start = (dimAt op i).start ∧ (dimAt op i).stride = 1 ∧
    (dimAt op0 i).limit = (dimAt op i).limit

instance (rank dimension : Nat) (op0 op : List SliceDim) : Decidable (legal rank dimension op0 op) :=
  inferInstanceAs (Decidable (∀ i < rank, _ → _))

def getCandidate (c : Carried V) : Option (Candidate V) :=
  match w.getDefiningOp w.loop.bodyOps c.yield with
  | some (.concatenate dimension, [v0, v1, v2]) => do
    guard (useCount w usedElsewhere c.yield = 1)
    let (operand, op0) ← getSlice w v0
    let (operand1, op1) ← getSlice w v1
    let (operand2, op2) ← getSlice w v2
    guard (operand = operand1 ∧ operand = operand2)
    let rank := (typeOf c.yield).shape.length
    guard (∀ op ∈ [op0, op1, op2], legal rank dimension op0 op)
    let lowerLim := int (dimAt op1 dimension).start
    let upperLim := int (dimAt op1 dimension).limit
    guard ((dimAt op2 dimension).start = lowerLim)
    guard ((dimAt op0 dimension).limit = upperLim)
    let lhsSize := int ((dimAt op0 dimension).limit - (dimAt op0 dimension).start)
    guard (lhsSize = coord (typeOf operand).shape dimension - upperLim)
    let rhsSize := int ((dimAt op2 dimension).limit - (dimAt op2 dimension).start)
    guard (rhsSize = lowerLim)
    return ⟨dimension, lhsSize, rhsSize, op0, op1, v1⟩
  | _ => none

def candidate (c : Carried V) : Bool := (getCandidate w typeOf usedElsewhere c).isSome

/-- The first elements, all elements and the last elements, one after another. -/
def createConcat (k : Candidate V) (v : V) : List (Instr (Op α) (FormName V)) :=
  let shape := k.middle.map SliceDim.size
  [⟨.part v 0, .slice (sliceAlong k.dimension 0 k.lhsSize shape), [.form v]⟩,
    ⟨.part v 1, .slice (sliceAlong k.dimension (coord shape k.dimension - k.rhsSize) (coord shape k.dimension) shape),
      [.form v]⟩,
    ⟨.old v, .concatenate k.dimension, [.part v 0, .form v, .part v 1]⟩]

def rebuild (c : Carried V) (v : V) : List (Instr (Op α) (FormName V)) :=
  (getCandidate w typeOf usedElsewhere c).elim [] fun k => createConcat k v

def carrying : Carrying (Op α) V where
  before c := (getCandidate w typeOf usedElsewhere c).elim [] fun k =>
    [⟨.initial c.result 0, .slice k.middle, [.old c.operand]⟩]
  operand c := .initial c.result 0
  condHead := []
  bodyHead := []
  rebuild := rebuild w typeOf usedElsewhere
  body := renamedBody w.loop (candidate w typeOf usedElsewhere) fun _ => []
  yield c := .old ((getCandidate w typeOf usedElsewhere c).elim c.yield Candidate.value)
  after := (w.loop.carried.filter (candidate w typeOf usedElsewhere)).flatMap fun c =>
    rebuild w typeOf usedElsewhere c c.result

def matchAndRewrite : Option (Program (Op α) (FormName V)) :=
  if w.loop.carried.any (candidate w typeOf usedElsewhere) then
    some (carryAs w.loop (candidate w typeOf usedElsewhere) (carrying w typeOf usedElsewhere)) else none

/-- Where an element of a line is in the middle, when what is before and after the middle extends it. -/
def place (lhs n rhs p : Nat) : Nat := if p < lhs then p else if p < lhs + n then p - lhs else p - lhs - rhs

/-- The tensor is its part from `start`, behind the first `lhs` elements of this part and before the last `rhs`. -/
structure Extended (dim start lhs n rhs : Nat) {β : Type} (y : Tensor β) : Prop where
  size : coord y.shape dim = lhs + (n + rhs)
  get_eq : ∀ idx ∈ indices (y.shape.set dim 1), ∀ p < lhs + (n + rhs),
    y.get (idx.set dim p) = y.get (idx.set dim (start + place lhs n rhs p))

instance (dim start lhs n rhs : Nat) {β : Type} [DecidableEq β] (y : Tensor β) :
    Decidable (Extended dim start lhs n rhs y) :=
  decidable_of_iff (_ ∧ _) ⟨fun h => ⟨h.1, h.2⟩, fun h => ⟨h.size, h.get_eq⟩⟩

def Candidate.innerSize (k : Candidate V) : Nat := coord (k.middle.map SliceDim.size) k.dimension

/-- Where the middle of the value is in an iteration. Before the loop it is taken where the body takes it. -/
def Candidate.middleStart (k : Candidate V) (n : Nat) : Nat := if n = 0 then k.rhsSize.toNat else k.lhsSize.toNat

/-- The sizes are those of the slices, and the middle is all of the operand in the other dimensions. -/
structure Candidate.Regular (k : Candidate V) (shape : List Nat) : Prop where
  rank : k.dimension < shape.length
  middle : k.middle = sliceAlong k.dimension k.rhsSize (coord shape k.dimension - k.lhsSize) shape
  left : ((dimAt k.left k.dimension).size : Int) = k.lhsSize
  lhs_le : k.lhsSize ≤ k.innerSize
  rhs_nonneg : 0 ≤ k.rhsSize
  rhs_le : k.rhsSize ≤ k.innerSize

/-- The value is extended, from where the middle is. -/
def Candidate.Extends (k : Candidate V) (n : Nat) (y : Val α) : Prop :=
  Extended k.dimension (k.middleStart n) k.lhsSize.toNat k.innerSize k.rhsSize.toNat y.tensor

instance [DecidableEq α] (k : Candidate V) (n : Nat) (y : Val α) : Decidable (k.Extends n y) :=
  inferInstanceAs (Decidable (Extended ..))

/-- In every iteration the values of the candidates are extended. -/
def StaysExtended (env : V → Val α) (N : Nat) : Prop :=
  ∀ c ∈ w.loop.carried, ∀ k, getCandidate w typeOf usedElsewhere c = some k → k.Regular (typeOf c.operand).shape ∧
      ∀ n ≤ N, ∀ σ, w.loop.entering (semantics α) env n = some σ → k.Extends n (σ c.result)

section

variable {w typeOf usedElsewhere} {env : V → Val α} {env' : FormName V → Val α} {c : Carried V} {k : Candidate V}
  {p : Program (Op α) (FormName V)} {shape : List Nat} {x y : Val α} {n : Nat}

theorem candidate_iff : candidate w typeOf usedElsewhere c = true ↔
    ∃ k, getCandidate w typeOf usedElsewhere c = some k := isSome_iff_exists

variable {v : V} {dims : List SliceDim} {e : FormName V → Val α}

theorem getDefiningOp_of_getSlice {operand : V} (h : getSlice w v = some (operand, dims)) :
    w.getDefiningOp w.loop.bodyOps v = some (.slice dims, [operand]) := by
  unfold getSlice at h
  split at h
  · rename_i hdef
    cases some.inj h
    exact hdef
  · cases h

theorem getCandidate_spec (h : getCandidate w typeOf usedElsewhere c = some k) : ∃ v0 v2 operand,
    w.getDefiningOp w.loop.bodyOps c.yield = some (.concatenate k.dimension, [v0, k.value, v2]) ∧
      w.getDefiningOp w.loop.bodyOps v0 = some (.slice k.left, [operand]) ∧
        w.getDefiningOp w.loop.bodyOps k.value = some (.slice k.middle, [operand]) := by
  unfold getCandidate at h
  split at h
  · rename_i dimension v0 v1 v2 hdef
    simp only [bind_eq_bind, bind_eq_some_iff, guard_eq_some'] at h
    obtain ⟨-, -, ⟨operand, op0⟩, h0, ⟨operand1, op1⟩, h1, ⟨operand2, op2⟩, -, -, ⟨rfl, -⟩, h⟩ := h
    obtain ⟨-, -, -, -, -, -, -, -, -, -, h⟩ := h
    cases h
    exact ⟨v0, v2, operand, hdef, getDefiningOp_of_getSlice h0, getDefiningOp_of_getSlice h1⟩
  · cases h

/-- The form of an extended value is its middle. -/
structure Candidate.Middle (k : Candidate V) (n : Nat) (x y : Val α) : Prop where
  extended : k.Extends n y
  along : Along k.dimension y.shape k.innerSize (fun idx j => y.tensor.get (idx.set k.dimension (k.middleStart n + j)))
    x.tensor

theorem run_createConcat (hregular : k.Regular y.shape) (hmiddle : k.Middle n (e (.form v)) y) :
    ∃ e', run (semantics α) (createConcat k v) e = some e' ∧ e' (.old v) = y := by
  obtain ⟨hrank, hdims, hleft, hlhs, hrhs, hrhs'⟩ := hregular
  obtain ⟨⟨hsize, hget⟩, halong⟩ := hmiddle
  have hlhs' : 0 ≤ k.lhsSize := hleft ▸ Int.natCast_nonneg _
  have hinner : k.middle.map SliceDim.size = (e (.form v)).shape := by
    have hmap : k.middle.map SliceDim.size = y.shape.set k.dimension k.innerSize := by
      rw [Candidate.innerSize, hdims, sliceAlong_size, coord_set_self hrank]
    exact hmap.trans halong.shape_eq.symm
  obtain ⟨a, ha, halonga⟩ := halong.slice 0 k.lhsSize hrank le_rfl hlhs' hlhs
  obtain ⟨b, hb, halongb⟩ := halong.slice (k.innerSize - k.rhsSize) k.innerSize hrank (by omega) (by omega) le_rfl
  obtain ⟨z, hz, halongz⟩ := Along.concatenate_two hrank halong (halongb.of_same (Tensor.Value.same_ofTensor b))
  obtain ⟨z', hz', halongz'⟩ := Along.concatenate_cons hrank (halonga.of_same (Tensor.Value.same_ofTensor a)) hz halongz
    halong.set_shape
  -- the elements of the new concatenation are those of the extended value
  have hsame : Same z' y.tensor := by
    have hself := (Along.self hrank).congr fun idx hidx p hp => hget idx hidx p (hsize ▸ hp)
    have hsum : (k.lhsSize - 0).toNat + (k.innerSize + ((k.innerSize : Int) - (k.innerSize - k.rhsSize)).toNat) =
        coord y.tensor.shape k.dimension := by omega
    rw [hsum] at halongz'
    refine (halongz'.congr fun idx _ p hp => ?_).same hrank hself
    rw [appendLine, appendLine, place]
    by_cases hbefore : p < k.lhsSize.toNat
    · rw [if_pos (by omega), if_pos hbefore, Int.toNat_zero, zero_add]
    · rw [if_neg (by omega), if_neg hbefore]
      by_cases hinside : p < k.lhsSize.toNat + k.innerSize
      · rw [if_pos (by omega), if_pos hinside, Int.sub_zero]
      · rw [if_neg (by omega), if_neg hinside]
        have hplace : (k.innerSize - k.rhsSize).toNat + (p - (k.lhsSize - 0).toNat - k.innerSize) =
            p - k.lhsSize.toNat - k.rhsSize.toNat := by omega
        rw [hplace]
  have hevala : (Op.slice (sliceAlong k.dimension 0 k.lhsSize (k.middle.map SliceDim.size))).eval [e (.form v)] =
      some (.ofTensor a) := Tensor.Value.lift_eq_some.mpr ⟨a, hinner ▸ ha, (Tensor.Value.same_ofTensor a).symm⟩
  have hevalb : (Op.slice (sliceAlong k.dimension (k.innerSize - k.rhsSize) k.innerSize
      (k.middle.map SliceDim.size))).eval [e (.form v)] = some (.ofTensor b) :=
    Tensor.Value.lift_eq_some.mpr ⟨b, hinner ▸ hb, (Tensor.Value.same_ofTensor b).symm⟩
  have hevaly : (Op.concatenate k.dimension).eval [.ofTensor a, e (.form v), .ofTensor b] = some y :=
    map_eq_some_iff.mpr ⟨z', hz', Tensor.Value.ofTensor_eq hsame⟩
  have hvals : [FormName.part v 0, .form v, .part v 1].map (update (update e (.part v 0)
      (.ofTensor a)) (.part v 1) (.ofTensor b)) = [.ofTensor a, e (.form v), .ofTensor b] := by simp
  rw [← hvals] at hevaly
  have hevalb' : (Op.slice (sliceAlong k.dimension (k.innerSize - k.rhsSize) k.innerSize
      (k.middle.map SliceDim.size))).eval ([FormName.form v].map (update e (.part v 0) (.ofTensor a))) =
        some (.ofTensor b) := by
    rwa [map_singleton, update_of_ne (fun heq => by cases heq)]
  exact ⟨_, run_cons_eq_some.mpr ⟨_, hevala, run_cons_eq_some.mpr ⟨_, hevalb', run_cons_eq_some.mpr ⟨y, hevaly, rfl⟩⟩⟩,
    update_self ..⟩

omit [DecidableEq V] in
theorem exists_eval_middle (hregular : k.Regular y.shape) (h : k.Extends 0 y) :
    ∃ x, (Op.slice k.middle).eval [y] = some x ∧ k.Middle 0 x y := by
  obtain ⟨hrank, hdims, hleft, -, hrhs, -⟩ := hregular
  have hsize := h.size
  obtain ⟨x, hx, halong⟩ := (Along.self hrank).slice k.rhsSize (coord y.tensor.shape k.dimension - k.lhsSize) hrank hrhs
    (by omega) (by omega)
  have hcount : ((coord y.tensor.shape k.dimension : Int) - k.lhsSize - k.rhsSize).toNat = k.innerSize := by omega
  rw [hcount] at halong
  exact ⟨.ofTensor x, Tensor.Value.lift_eq_some.mpr ⟨x, hdims ▸ hx, (Tensor.Value.same_ofTensor x).symm⟩, h,
    halong.of_same (Tensor.Value.same_ofTensor x)⟩

omit [DecidableEq V] in
theorem eval_slice_shape (h : (Op.slice dims).eval [y] = some x) : x.shape = dims.map SliceDim.size := by
  obtain ⟨t, ht, hsame⟩ := Tensor.Value.lift_eq_some.mp h
  obtain ⟨-, ht⟩ := ite_none_right_eq_some.mp ht
  cases ht
  exact hsame.shape_eq.symm

omit [DecidableEq V] in
theorem middle_of_concatenate {operand v0 v2 : Val α} (hregular : k.Regular shape)
    (h0 : (Op.slice k.left).eval [operand] = some v0) (h1 : (Op.slice k.middle).eval [operand] = some x)
    (h : (Op.concatenate k.dimension).eval [v0, x, v2] = some y) (hextends : k.Extends (n + 1) y) :
    k.Middle (n + 1) x y := by
  obtain ⟨t, ht, hy⟩ := map_eq_some_iff.mp h
  have hsame : Same t y.tensor := hy ▸ (Tensor.Value.same_ofTensor t).symm
  have hrank : k.dimension < y.tensor.shape.length := hsame.shape_eq ▸ (pieces_of_concatenate ht).1
  have hv0 : coord v0.tensor.shape k.dimension = (dimAt k.left k.dimension).size := by
    rw [← Tensor.Value.shape, eval_slice_shape h0]
    exact getD_map k.left ⟨0, 0, 1⟩ SliceDim.size
  have hx : coord x.tensor.shape k.dimension = k.innerSize := by
    rw [← Tensor.Value.shape, eval_slice_shape h1]
    rfl
  have htotal : total k.dimension [v0.tensor] = k.lhsSize.toNat := by
    rw [total_cons, total_nil, hv0, ← hregular.left]
    rfl
  obtain ⟨z, hz, hzx⟩ : ∃ z, slice (sliceAlong k.dimension (total k.dimension [v0.tensor])
      (total k.dimension [v0.tensor] + coord x.tensor.shape k.dimension) t.shape) t = some z ∧ Same z x.tensor :=
    slice_concatenate ht
  obtain ⟨z', hz', hzz⟩ := slice_of_same hsame hz
  rw [htotal, hx, hsame.shape_eq] at hz'
  have hsize := hextends.size
  obtain ⟨z'', hz'', halong⟩ := (Along.self hrank).slice k.lhsSize.toNat (k.lhsSize.toNat + k.innerSize) hrank
    (Int.natCast_nonneg _) (by omega) (by omega)
  cases hz'.symm.trans hz''
  have hcount : ((k.lhsSize.toNat : Int) + k.innerSize - k.lhsSize.toNat).toNat = k.innerSize := by omega
  rw [hcount, Int.toNat_natCast] at halong
  exact ⟨hextends, halong.of_same (hzx.symm.trans hzz.symm)⟩

omit [DecidableEq V] in
theorem mem_createConcat {i : Instr (Op α) (FormName V)} (hi : i ∈ createConcat k v) :
    i.result = .old v ∨ ∃ j, i.result = .part v j := by
  simp only [createConcat, mem_cons, not_mem_nil, or_false] at hi
  obtain rfl | rfl | rfl := hi
  · exact .inr ⟨0, rfl⟩
  · exact .inr ⟨1, rfl⟩
  · exact .inl rfl

theorem named : (carrying w typeOf usedElsewhere).Named := by
  refine ⟨fun c i hi => ⟨0, ?_⟩, fun _ => .inr ⟨0, rfl⟩, nofun, nofun, fun c v i hi => ?_⟩
  · obtain ⟨k, -, hi⟩ := mem_elim.mp hi
    rw [mem_singleton.mp hi]
  · obtain ⟨k, -, hi⟩ := mem_elim.mp hi
    exact mem_createConcat hi

theorem run_rebuild (hk : getCandidate w typeOf usedElsewhere c = some k) (hregular : k.Regular y.shape)
    (h : k.Middle n (e (.form v)) y) :
    ∃ e', run (semantics α) (rebuild w typeOf usedElsewhere c v) e = some e' ∧ e' (.old v) = y := by
  rw [rebuild, hk]
  exact run_createConcat hregular h

section

variable (N : Nat) (hw : w.WellFormed) (henv : w.Holds env) (htyped : w.WellTyped typeOf env)
  (hstays : StaysExtended w typeOf usedElsewhere env N)

include hw henv htyped hstays

theorem computes : (carrying w typeOf usedElsewhere).Computes (semantics α) w.loop (candidate w typeOf usedElsewhere)
      (fun v => w.definedOutside v = true) env N
      (.ofRep fun c n x y => ∀ k, getCandidate w typeOf usedElsewhere c = some k → k.Middle n x y) := by
  constructor
  case condHead => exact fun _ _ _ _ _ _ e _ _ => ⟨e, rfl, trivial⟩
  case bodyHead => exact fun _ _ _ _ _ _ e _ _ => ⟨e, rfl, trivial⟩
  case rebuild =>
    intro n hn σ hσ c hc hcand v e _ _ _ hrep
    obtain ⟨k, hk⟩ := candidate_iff.mp hcand
    have hregular := (hstays c hc k hk).1
    rw [← (htyped.has_entering hw hσ hc).1] at hregular
    obtain ⟨e', hrun, hval⟩ := run_rebuild hk hregular (hrep k hk)
    exact ⟨e', hrun, fun _ => hval⟩
  case before =>
    intro c hc hcand e he
    obtain ⟨k, hk⟩ := candidate_iff.mp hcand
    obtain ⟨hregular, hextends⟩ := hstays c hc k hk
    have hstart := hextends 0 (Nat.zero_le N) _ rfl
    rw [WhileOp.start_result hw hc] at hstart
    rw [← (htyped.outside _ (hw.operand_outside c hc)).1] at hregular
    obtain ⟨x, hx, hmiddle⟩ := exists_eval_middle hregular hstart
    have heval : (Op.slice k.middle).eval ([FormName.old c.operand].map e) = some x := by
      rwa [map_singleton, he]
    obtain ⟨e', hrun, hval⟩ : ∃ e', run (semantics α) ((carrying w typeOf usedElsewhere).before c) e = some e' ∧
        e' (.initial c.result 0) = x := by
      change ∃ e', run _ ((getCandidate w typeOf usedElsewhere c).elim _ _) e = _ ∧ _
      rw [hk]
      exact exists_run_one heval
    refine ⟨e', hrun, fun k' hk' => ?_, trivial⟩
    cases hk.symm.trans hk'
    exact hval ▸ hmiddle
  case body =>
    intro n hn σ e hσ htrue he e₀ hold _ _
    obtain ⟨e', he', hagree, hyields⟩ : ∃ e', run (semantics α)
        (renamedBody w.loop (candidate w typeOf usedElsewhere) fun _ => []) e₀ = some e' ∧
          (∀ v, w.loop.Reads Carried.bodyArg (fun _ => True) v → e' (.old v) = e v) ∧
            ∀ c ∈ w.loop.carried, candidate w typeOf usedElsewhere c = true → n < N → ∀ k,
              getCandidate w typeOf usedElsewhere c = some k →
                k.Middle (n + 1) (e' ((carrying w typeOf usedElsewhere).yield c)) (e c.yield) := by
      refine run_renamedBody (R := fun c x y => n < N → ∀ k, getCandidate w typeOf usedElsewhere c = some k →
          k.Middle (n + 1) x y) hw.scoped w.loop.readsExact_true (fun _ => nofun) (fun _ => .inl ⟨_, rfl⟩)
        (fun c hc _ e' hagree _ => ⟨e', rfl, fun hlt k hk => ?_⟩) hold he
      obtain ⟨v0, v2, operand, hdef, hdef0, hdef1⟩ := getCandidate_spec hk
      obtain ⟨hregular, hextends⟩ := hstays c hc k hk
      have hout : ∀ v, w.definedOutside v = true → e v = env v := fun v => WhileOp.bodyEnv_outside hσ he
      have hnext : w.loop.next (semantics α) σ =
          some (Straightline.assign w.loop.carried Carried.result (fun c => e c.yield) σ) := by
        rw [Loop.next, he, map_some]
      have hentering := Loop.entering_succ_eq_some.mpr ⟨σ, hσ, htrue, hnext⟩
      have hnew := hextends (n + 1) hlt _ hentering
      rw [assign_of_mem hw.nodup_result hc] at hnew
      have hyield : e' ((carrying w typeOf usedElsewhere).yield c) = e k.value := by
        change e' (.old ((getCandidate w typeOf usedElsewhere c).elim _ _)) = _
        rw [hk]
        have hscope := hw.bodyScope_of_definingOp hdef k.value (by simp)
        exact hagree _ fun c' hc' => ⟨hw.result_ne_of_bodyScope hscope hc', fun _ => trivial⟩
      rw [hyield]
      exact middle_of_concatenate hregular (WhileOp.eval_definingOp hw henv hw.body_ordered he hout hdef0)
        (WhileOp.eval_definingOp hw henv hw.body_ordered he hout hdef1)
        (WhileOp.eval_definingOp hw henv hw.body_ordered he hout hdef) hnew
    exact ⟨e', he', hagree, hyields⟩

/-- If the values stay extended, the loop that carries their middles has the same values. -/
theorem preservesTo_matchAndRewrite (h : matchAndRewrite w typeOf usedElsewhere = some p)
    (henv' : ∀ v, env' (.old v) = env v) : PreservesTo (semantics α) w.loop p ⟨.old, .old, .old⟩ env env' N := by
  obtain ⟨-, h⟩ := ite_none_right_eq_some.mp h
  cases h
  refine (simulatesTo_carryAs hw.scoped w.loop.readsExact_true named (computes N hw henv htyped hstays) henv'
    (fun _ _ _ h => w.loop.agrees_of_reads h) (fun _ _ _ h => w.loop.agrees_of_reads h)
    fun n hn σ τ hσ hR => ?_).preservesTo
  have hend := (Loop.exits_eq_some.mp hσ).1
  refine run_results hw.scoped (fun c i hi => ?_) hR.kept fun c hc hcand e _ _ _ hform => ?_
  · obtain ⟨k, -, hi⟩ := mem_elim.mp hi
    exact mem_createConcat hi
  · obtain ⟨k, hk⟩ := candidate_iff.mp hcand
    have hregular := (hstays c hc k hk).1
    rw [← (htyped.has_entering hw hend hc).1] at hregular
    exact run_rebuild hk hregular (hform ▸ hR.forms c hc hcand k hk)

end

end

end WhileConcat

/-- The transposed values, the wrapped and extended values, and the concatenations that stay extended are carried in
their other form with the same values in all iterations and the same results. -/
theorem preservesTo_of_staysExtended (w : WhileOp α V) (typeOf : V → ValueType) (env : V → Val α)
    (env' : FormName V → Val α) (N : Nat) (hw : w.WellFormed) (henv : w.Holds env) (htyped : w.WellTyped typeOf env)
    (henv' : ∀ v, env' (.old v) = env v) :
    (∀ users p, TransposeWhile.OuterTransposesOk w users typeOf → TransposeWhile.matchAndRewrite w users = some p →
      SimulatesTo (semantics α) w.loop p env env' N (fun _ => w.loop.Agrees .old) (fun _ => w.loop.Agrees .old)
        fun _ => TransposeWhile.ResultsPreserved w users) ∧
    (∀ kind p, WhileWrap.InitiallyInForm kind w env → WhileWrap.matchAndRewrite kind w typeOf = some p →
      PreservesTo (semantics α) w.loop p ⟨.old, .old, .old⟩ env env' N) ∧
    ∀ usedElsewhere p, WhileConcat.StaysExtended w typeOf usedElsewhere env N →
      WhileConcat.matchAndRewrite w typeOf usedElsewhere = some p →
        PreservesTo (semantics α) w.loop p ⟨.old, .old, .old⟩ env env' N :=
  ⟨fun _ _ hperms h => TransposeWhile.simulatesTo_matchAndRewrite N hw htyped hperms h henv',
    fun _ _ hinitial h => WhileWrap.preservesTo_matchAndRewrite N hw henv htyped hinitial h henv',
    fun _ _ hstays h => WhileConcat.preservesTo_matchAndRewrite N hw henv htyped hstays h henv'⟩

/-! ### A loop with all forms -/

namespace AllForms

/-- A counter to one, and a concatenation, a transposed, a wrapped and an extended value. -/
def loop : WhileOp Unit Nat where
  loop := ⟨[⟨0, 10, 20, 24, 30⟩, ⟨1, 11, 21, 28, 31⟩, ⟨4, 12, 22, 22, 32⟩, ⟨5, 13, 23, 29, 33⟩, ⟨6, 14, 35, 34, 36⟩],
    [⟨15, .compare .LT, [10, 2]⟩], 15,
    [⟨24, .add ⟨64, false⟩, [20, 3]⟩, ⟨25, .slice [⟨3, 4, 1⟩], [21]⟩, ⟨26, .slice [⟨1, 4, 1⟩], [21]⟩,
      ⟨27, .slice [⟨1, 2, 1⟩], [21]⟩, ⟨28, .concatenate 0, [25, 26, 27]⟩, ⟨29, .wrap 1 1 0, [7]⟩,
      ⟨34, .extend 1 1 0, [7]⟩]⟩
  defs _ := none

def typeOf (v : Nat) : ValueType :=
  ⟨if v ∈ [1, 5, 6, 21, 23, 28, 29, 34, 35] then [5] else if v ∈ [4, 22] then [2, 3] else if v ∈ [7, 26] then [3]
    else if v ∈ [25, 27] then [1] else [], false⟩

def env (ys : List Int) (v : Nat) : Val Unit :=
  ofInts (typeOf v).shape fun idx =>
    match v with
    | 1 => ys.getD (coord idx 0) 0
    | 2 | 3 => 1
    | 4 => 3 * coord idx 0 + coord idx 1
    | 5 => [3, 1, 2, 3, 1].getD (coord idx 0) 0
    | 6 => [1, 1, 2, 3, 3].getD (coord idx 0) 0
    | 7 => [1, 2, 3].getD (coord idx 0) 0
    | _ => 0

def env' (ys : List Int) : FormName Nat → Val Unit
  | .old v => env ys v
  | _ => ofInt 0

def users (v : Nat) : List (Op Unit) := if v = 32 then [.transpose [1, 0]] else []

theorem wellFormed : loop.WellFormed :=
  ⟨by decide, by decide, by decide, by decide, by decide, by decide, by decide, by decide, nofun⟩

theorem holds (ys : List Int) : loop.Holds (env ys) := nofun

theorem shape_create (kind : WhileWrap.Kind) {x z : Val Unit} (hx : x.shape = [3])
    (h : (kind.create 1 1 0).eval [x] = some z) : z.shape = [5] := by
  have halong : Along 0 [3] 3 (fun idx k => x.tensor.get (idx.set 0 k)) x.tensor := .of_shape hx
  cases kind with
  | wrap =>
    obtain ⟨t, ht, hsame⟩ := Tensor.Value.lift_eq_some.mp h
    obtain ⟨y, hy, hyalong⟩ := @along_lowerWrap _ 0 3 1 1 [3] _ _ zero_lt_one halong (by decide) (by decide)
    cases ht.symm.trans hy
    exact hsame.shape_eq.symm.trans hyalong.shape_eq
  | extend =>
    obtain ⟨t, ht, hsame⟩ := Tensor.Value.lift_eq_some.mp h
    obtain ⟨y, hy, hyalong⟩ := @along_lowerExtend _ 0 3 1 1 [3] _ _ zero_lt_one halong (by decide) (by decide)
    cases ht.symm.trans hy
    exact hsame.shape_eq.symm.trans hyalong.shape_eq

theorem wellTyped (ys : List Int) : loop.WellTyped typeOf (env ys) := by
  refine ⟨fun i hi e z hops h => ⟨?_, nofun⟩, by decide, fun _ _ => ⟨rfl, nofun⟩⟩
  simp only [loop, mem_cons, not_mem_nil, or_false] at hi
  rcases hi with rfl | rfl | rfl | rfl | rfl | rfl | rfl
  · exact (arith_eq_some.mp h).2.1.trans (hops 20 (by decide)).1
  · exact WhileConcat.eval_slice_shape h
  · exact WhileConcat.eval_slice_shape h
  · exact WhileConcat.eval_slice_shape h
  · obtain ⟨t, ht, rfl⟩ := map_eq_some_iff.mp h
    obtain ⟨-, ht⟩ := ite_none_right_eq_some.mp ht
    cases ht
    have h25 : (e 25).tensor.shape = [1] := (hops 25 (by decide)).1
    have h26 : (e 26).tensor.shape = [3] := (hops 26 (by decide)).1
    have h27 : (e 27).tensor.shape = [1] := (hops 27 (by decide)).1
    change concatenateShape 0 [(e 25).tensor.shape, (e 26).tensor.shape, (e 27).tensor.shape] = [5]
    rw [h25, h26, h27]
    decide
  · exact shape_create .wrap (hops 7 (by decide)).1 h
  · exact shape_create .extend (hops 7 (by decide)).1 h

theorem staysExtended : WhileConcat.StaysExtended loop typeOf (fun _ => 0) (env [1, 1, 2, 1, 1]) 1 := by
  intro c hc k hk
  simp only [loop, mem_cons, not_mem_nil, or_false] at hc
  rcases hc with rfl | rfl | rfl | rfl | rfl
  case inr.inl =>
    have hcandidate : WhileConcat.getCandidate loop typeOf (fun _ => 0) ⟨1, 11, 21, 28, 31⟩ =
        some ⟨0, 1, 1, [⟨3, 4, 1⟩], [⟨1, 4, 1⟩], 26⟩ := rfl
    cases hcandidate.symm.trans hk
    refine ⟨⟨by decide, rfl, by decide, by decide, by decide, by decide⟩, fun n hn σ hσ => ?_⟩
    have hextends : ∀ n ≤ 1, (loop.loop.entering (semantics Unit) (env [1, 1, 2, 1, 1]) n).all fun σ =>
        WhileConcat.Candidate.Extends (V := Nat) ⟨0, 1, 1, [⟨3, 4, 1⟩], [⟨1, 4, 1⟩], 26⟩ n (σ 31) := by decide +kernel
    have h := hextends n hn
    rw [hσ] at h
    exact of_decide_eq_true h
  all_goals cases hk

theorem eval_wrap : (Op.wrap 1 1 0).eval [env [] 7] = some (env [] 5) :=
  Tensor.Value.lift_eq_some.mpr ⟨(lowerWrap 0 1 1 (env [] 7).tensor).get (by decide), (some_get _).symm,
    by decide, by decide⟩

theorem eval_extend : (Op.extend 1 1 0).eval [env [] 7] = some (env [] 6) :=
  Tensor.Value.lift_eq_some.mpr ⟨(lowerExtend 0 1 1 (env [] 7).tensor).get (by decide), (some_get _).symm,
    by decide, by decide⟩

theorem initiallyInForm (kind : WhileWrap.Kind) (ys : List Int) : WhileWrap.InitiallyInForm kind loop (env ys) := by
  intro c hc concat hconcat
  simp only [loop, mem_cons, not_mem_nil, or_false] at hc
  cases kind with
  | wrap =>
    rcases hc with rfl | rfl | rfl | rfl | rfl
    case inr.inr.inr.inl =>
      cases hconcat
      exact ⟨env [] 7, eval_wrap⟩
    all_goals cases hconcat
  | extend =>
    rcases hc with rfl | rfl | rfl | rfl | rfl
    case inr.inr.inr.inr =>
      cases hconcat
      exact ⟨env [] 7, eval_extend⟩
    all_goals cases hconcat

theorem outerTransposesOk : TransposeWhile.OuterTransposesOk loop users typeOf := by
  unfold TransposeWhile.OuterTransposesOk
  decide

/-- One iteration with all values in their other form. -/
theorem preservesTo_one : ∃ p₁ p₂ p₃ p₄, TransposeWhile.matchAndRewrite loop users = some p₁ ∧
    WhileWrap.matchAndRewrite .wrap loop typeOf = some p₂ ∧ WhileWrap.matchAndRewrite .extend loop typeOf = some p₃ ∧
      WhileConcat.matchAndRewrite loop typeOf (fun _ => 0) = some p₄ ∧
        SimulatesTo (semantics Unit) loop.loop p₁ (env [1, 1, 2, 1, 1]) (env' [1, 1, 2, 1, 1]) 1
          (fun _ => loop.loop.Agrees .old) (fun _ => loop.loop.Agrees .old)
          (fun _ => TransposeWhile.ResultsPreserved loop users) ∧
        ∀ p ∈ [p₂, p₃, p₄],
          PreservesTo (semantics Unit) loop.loop p ⟨.old, .old, .old⟩ (env [1, 1, 2, 1, 1]) (env' [1, 1, 2, 1, 1]) 1 := by
  have h := preservesTo_of_staysExtended loop typeOf (env [1, 1, 2, 1, 1]) (env' [1, 1, 2, 1, 1]) 1 wellFormed
    (holds _) (wellTyped _) fun _ => rfl
  refine ⟨_, _, _, _, rfl, rfl, rfl, rfl, h.1 users _ outerTransposesOk rfl, ?_⟩
  intro p hp
  simp only [mem_cons, not_mem_nil, or_false] at hp
  rcases hp with rfl | rfl | rfl
  · exact h.2.1 .wrap _ (initiallyInForm .wrap _) rfl
  · exact h.2.1 .extend _ (initiallyInForm .extend _) rfl
  · exact h.2.2 (fun _ => 0) _ staysExtended rfl

/-- In wrapped form the concatenation is rebuilt with the wrong borders. -/
theorem not_preservesTo_wrapped : ∃ p x, WhileConcat.matchAndRewrite loop typeOf (fun _ => 0) = some p ∧
    loop.WellFormed ∧ loop.Holds (env [3, 1, 2, 3, 1]) ∧ loop.WellTyped typeOf (env [3, 1, 2, 3, 1]) ∧
      (Op.wrap 1 1 0).eval [x] = some (env [3, 1, 2, 3, 1] 1) ∧
        (loop.loop.exits (semantics Unit) (env [3, 1, 2, 3, 1]) 1).isSome ∧
          ¬PreservesTo (semantics Unit) loop.loop p ⟨.old, .old, .old⟩ (env [3, 1, 2, 3, 1]) (env' [3, 1, 2, 3, 1]) 1 := by
  have hresults : (loop.loop.exits (semantics Unit) (env [3, 1, 2, 3, 1]) 1).map (fun σ => (σ 31).tensor.get [0]) =
      some (.int 3) := by decide +kernel
  have hrebuilt : ((WhileConcat.matchAndRewrite loop typeOf fun _ => 0).bind fun p =>
      (p.exits (semantics Unit) (env' [3, 1, 2, 3, 1]) 1).map fun τ => (τ (.old 31)).tensor.get [0]) =
        some (.int 1) := by decide +kernel
  obtain ⟨σ, hσ, hfirst⟩ := map_eq_some_iff.mp hresults
  obtain ⟨p, hp, hp'⟩ := bind_eq_some_iff.mp hrebuilt
  obtain ⟨τ, hτ, hfirst'⟩ := map_eq_some_iff.mp hp'
  refine ⟨p, _, hp, wellFormed, holds _, wellTyped _, eval_wrap, isSome_iff_exists.mpr ⟨σ, hσ⟩, fun h => ?_⟩
  obtain ⟨τ', hτ', hsame⟩ := h.exits 1 le_rfl σ hσ
  cases hτ.symm.trans hτ'
  have hvalue : τ (.old 31) = σ 31 := hsame 31
  rw [hvalue, hfirst] at hfirst'
  cases hfirst'

end AllForms

end EnzymeJax.WhileLoop
