import EnzymeJax.Raising.Align

/-!
# Raising index expressions

`expandAffineExpr` builds the tensor of an affine expression over a grid. Parallel variables are tensors, sequential
ones and symbols scalars. All operations are elementwise on aligned operands, so an operation is given by what
it does to the elements.
-/

namespace EnzymeJax

open List Option

variable {V : Type} [DecidableEq V]

/-- The tensor of a parallel variable: an iota, shifted by the lower bound and scaled by the step. -/
def emitIVToStableHLO (range : InductionVariableRange) : Option (Tensor Int) := do
  let n := range.getNumIters.toNat
  let iota ← Tensor.zipWith (· + ·) (Tensor.iota n) (Tensor.splat [n] range.lb)
  Tensor.zipWith (· * ·) iota (Tensor.splat [n] range.step)

/-- What an operation computes from the elements of its operands. -/
def AffineExprKind.expand : AffineExprKind → Int → Int → Int
  | .add, a, b => a + b
  | .mul, a, b => a * b
  | .mod, a, b =>
    let remainder := a.tmod b
    let negative := a < 0
    if negative then remainder + b else remainder
  | .floorDiv, a, b =>
    let negative := a < 0
    let absolute := if negative then -a - 1 else a
    let quotient := absolute.tdiv b
    if negative then -quotient - 1 else quotient
  | .ceilDiv, a, b =>
    let negative := a ≤ 0
    let absolute := if negative then -a else a + 1
    let quotient := absolute.tdiv b
    if negative then -quotient else quotient + 1

/-- The operands of an affine map: the variables of its dimensions, the values of its symbols, and
the values sequential variables have. -/
structure AffineOperands (V : Type) where
  dims : Nat → V
  symbols : Nat → Int
  sequential : V → Int

section

variable (pc : ParallelContext V) (operands : AffineOperands V)

def expandAffineExpr : AffineExpr → Option (Tensor Int × List V)
  | .const value => some (Tensor.splat [] value, [])
  | .bin kind lhsExpr rhsExpr => do
    let (lhs, lhsMap) ← expandAffineExpr lhsExpr
    let (rhs, rhsMap) ← expandAffineExpr rhsExpr
    match ← alignMemoryAccess pc lhs lhsMap [rhs] [rhsMap] with
    | (lhs, [rhs], outputMap) =>
      let result ← Tensor.zipWith kind.expand lhs rhs
      some (result, outputMap)
    | _ => none
  | .sym position => some (Tensor.splat [] (operands.symbols position), [])
  | .dim position =>
    let dim := operands.dims position
    if pc.isParallelIV dim then (emitIVToStableHLO (pc.getIVRange dim)).map (·, [dim])
    else some (Tensor.splat [] (operands.sequential dim), [])

/-! ### What the expansion is for -/

def valueAt (pos : V → Nat) (iv : V) : Int :=
  if pc.isParallelIV iv then (pc.getIVRange iv).value (pos iv) else operands.sequential iv

/-- The value of an expression at a point of the grid. -/
def evalAt (pos : V → Nat) (e : AffineExpr) : Int :=
  e.eval (fun d => valueAt pc operands pos (operands.dims d)) operands.symbols

/-- The tensor of the expression has one dimension for each distinct parallel variable of its list,
and at every point of the grid its element is the value of the expression there. -/
def RaisesExactly (e : AffineExpr) : Prop :=
  ∃ t map, expandAffineExpr pc operands e = some (t, map) ∧ map.Nodup ∧
    (∀ iv ∈ map, pc.isParallelIV iv) ∧ t.shape = affineMapShape pc map ∧
      ∀ pos, pc.IsPoint map pos → t.get (map.map pos) = evalAt pc operands pos e

/-! ### What the tensor holds -/

/-- The parallel variables an expression is a function of. -/
def parallelIVs (e : AffineExpr) : List V :=
  (e.dimPositions.map operands.dims).filter pc.isParallelIV

/-- The element of the tensor at a point of the grid. -/
def expandedAt (pos : V → Nat) : AffineExpr → Int
  | .const value => value
  | .sym position => operands.symbols position
  | .dim position =>
    let dim := operands.dims position
    if pc.isParallelIV dim then (pos dim + (pc.getIVRange dim).lb) * (pc.getIVRange dim).step
    else operands.sequential dim
  | .bin kind lhs rhs => kind.expand (expandedAt pos lhs) (expandedAt pos rhs)

theorem exists_emitIVToStableHLO (range : InductionVariableRange) :
    ∃ t, emitIVToStableHLO range = some t ∧ t.shape = [range.getNumIters.toNat] ∧
      ∀ idx, t.get idx = (Tensor.coord idx 0 + range.lb) * range.step := by
  simp [emitIVToStableHLO, Tensor.zipWith, Tensor.iota, Tensor.splat]

theorem exists_expandAffineExpr (e : AffineExpr) :
    ∃ t map, expandAffineExpr pc operands e = some (t, map) ∧ map.Nodup ∧
      (∀ iv, iv ∈ map ↔ iv ∈ parallelIVs pc operands e) ∧ t.shape = affineMapShape pc map ∧
        ∀ pos, pc.IsPoint map pos → t.get (map.map pos) = expandedAt pc operands pos e := by
  induction e with
  | const value | sym position =>
    exact ⟨_, _, rfl, nodup_nil, by simp [parallelIVs, AffineExpr.dimPositions], rfl, fun _ _ => rfl⟩
  | dim position =>
    by_cases hpar : pc.isParallelIV (operands.dims position) = true
    · obtain ⟨t, hemit, hshape, hget⟩ :=
        exists_emitIVToStableHLO (pc.getIVRange (operands.dims position))
      refine ⟨t, [operands.dims position], ?_, nodup_singleton _, ?_, ?_, ?_⟩
      · rw [expandAffineExpr, if_pos hpar, hemit, map_some]
      · simp [parallelIVs, AffineExpr.dimPositions, hpar]
      · simp [hshape, affineMapShape, ParallelContext.extent, hpar]
      · intro pos _
        simp [hget, expandedAt, hpar, Tensor.coord]
    · refine ⟨Tensor.splat [] (operands.sequential (operands.dims position)), [], ?_, nodup_nil, ?_, rfl, ?_⟩
      · rw [expandAffineExpr, if_neg hpar]
      · simp [parallelIVs, AffineExpr.dimPositions, hpar]
      · intro pos _
        simp [expandedAt, hpar, Tensor.splat]
  | bin kind lhs rhs ihl ihr =>
    obtain ⟨lt, lmap, hl, hlnodup, hlmem, hlshape, hlget⟩ := ihl
    obtain ⟨rt, rmap, hr, hrnodup, hrmem, hrshape, hrget⟩ := ihr
    obtain ⟨lt', rts, map, halign, hkeepL, hkeeps⟩ :=
      (alignsExactly_iff hlshape (.cons hrshape .nil)).mpr (forall_mem_singleton.mpr hrnodup)
    obtain ⟨rt', rfl, hkeepR⟩ : ∃ rt', rts = [rt'] ∧ KeepsValue pc map rmap rt rt' := by
      cases hkeeps with
      | @cons _ rt' _ _ hkeep hrest =>
        cases hrest
        exact ⟨rt', rfl, hkeep⟩
    obtain ⟨hnodup, hmem⟩ := mem_alignMemoryAccess halign
    refine ⟨⟨affineMapShape pc map, fun idx => kind.expand (lt'.get idx) (rt'.get idx)⟩, map, ?_,
      hnodup hlnodup, fun iv => ?_, rfl, fun pos hpos => ?_⟩
    · simp only [expandAffineExpr, hl, hr, halign, bind_eq_bind, bind_some,
        Tensor.zipWith, hkeepL.shape, hkeepR.shape, if_true]
    · rw [hmem, hlmem]
      simp only [mem_singleton, exists_eq_left, hrmem, parallelIVs, AffineExpr.dimPositions,
        map_append, filter_append, mem_append]
    · dsimp only
      rw [hkeepL.get pos hpos, hkeepR.get pos hpos, hlget pos fun iv hiv => hpos iv ((hmem iv).mpr (.inl hiv)),
        hrget pos fun iv hiv => hpos iv ((hmem iv).mpr (.inr ⟨rmap, mem_singleton_self _, hiv⟩)),
        expandedAt]

theorem raisesExactly_iff (e : AffineExpr) :
    RaisesExactly pc operands e ↔ ∀ pos, pc.IsPoint (parallelIVs pc operands e) pos →
      expandedAt pc operands pos e = evalAt pc operands pos e := by
  obtain ⟨t, map, hexpand, hnodup, hmem, hshape, hget⟩ := exists_expandAffineExpr pc operands e
  have hpoint : ∀ pos, pc.IsPoint (parallelIVs pc operands e) pos ↔ pc.IsPoint map pos := by
    intro pos
    simp only [ParallelContext.IsPoint, hmem]
  simp only [hpoint]
  constructor
  · rintro ⟨t', map', hexpand', -, -, -, hget'⟩ pos hpos
    cases some.inj (hexpand.symm.trans hexpand')
    rw [← hget pos hpos, hget' pos hpos]
  · intro h
    refine ⟨t, map, hexpand, hnodup, fun iv hiv => ?_, hshape, fun pos hpos => ?_⟩
    · exact (mem_filter.mp ((hmem iv).mp hiv)).2
    · rw [hget pos hpos, h pos hpos]

end

/-! ### When an operation is exact -/

/-- The remainder of a negative multiple of the modulus is taken for negative. -/
theorem expand_mod_iff {a c : Int} (hc : 0 < c) :
    AffineExprKind.mod.expand a c = AffineExprKind.mod.eval a c ↔ ¬ (a < 0 ∧ c ∣ a) := by
  simp only [AffineExprKind.expand, AffineExprKind.eval, Int.tmod_eq_emod, Int.dvd_iff_emod_eq_zero]
  have hrange := Int.emod_lt_of_pos a hc
  have hnonneg := Int.emod_nonneg a hc.ne'
  split_ifs <;> omega

theorem expand_floorDiv {a c : Int} (hc : 0 < c) :
    AffineExprKind.floorDiv.expand a c = AffineExprKind.floorDiv.eval a c := by
  simp only [AffineExprKind.expand, AffineExprKind.eval]
  split
  · rename_i hneg
    have hrange := Int.emod_lt_of_pos a hc
    have hnonneg := Int.emod_nonneg a hc.ne'
    have hsum := Int.emod_add_mul_ediv a c
    have hquot : (-a - 1) / c = -(a / c) - 1 := by
      refine ((Int.ediv_emod_unique hc).mpr ⟨?_, ?_, ?_⟩ : _ ∧ (-a - 1) % c = c - a % c - 1).1
      · rw [mul_sub, mul_neg]
        omega
      · omega
      · omega
    rw [Int.tdiv_eq_ediv_of_nonneg (by omega), hquot]
    omega
  · exact Int.tdiv_eq_ediv_of_nonneg (by omega)

/-- The dividend is moved the wrong way: the quotient is one too large when the dividend or its
successor is a multiple of the divisor. -/
theorem expand_ceilDiv_iff {a c : Int} (hc : 0 < c) :
    AffineExprKind.ceilDiv.expand a c = AffineExprKind.ceilDiv.eval a c ↔ a ≤ 0 ∨ ¬ c ∣ a ∧ ¬ c ∣ a + 1 := by
  simp only [AffineExprKind.expand, AffineExprKind.eval]
  split
  · rename_i hneg
    rw [Int.tdiv_eq_ediv_of_nonneg (by omega)]
    exact iff_of_true rfl (.inl hneg)
  · rename_i hpos
    have hrange := Int.emod_lt_of_pos a hc
    have hnonneg := Int.emod_nonneg a hc.ne'
    have hsum := Int.emod_add_mul_ediv a c
    rw [Int.tdiv_eq_ediv_of_nonneg (by omega), or_iff_right hpos, Int.dvd_iff_emod_eq_zero, Int.dvd_iff_emod_eq_zero]
    -- the rounded quotients of `-a` and `a + 1` from the remainder of `a`
    rcases hnonneg.eq_or_lt with hzero | hrem
    · have hneg : -a / c = -(a / c) := Int.neg_ediv_of_dvd (Int.dvd_of_emod_eq_zero hzero.symm)
      have hup : a / c ≤ (a + 1) / c := Int.ediv_le_ediv hc (by omega)
      omega
    · have hneg : -a / c = -(a / c) - 1 := by
        refine ((Int.ediv_emod_unique hc).mpr ⟨?_, ?_, ?_⟩ : _ ∧ -a % c = c - a % c).1
        · rw [mul_sub, mul_neg]
          omega
        · omega
        · omega
      rcases (show a % c + 1 ≤ c by omega).eq_or_lt with hlast | hmid
      · have hup : (a + 1) / c = a / c + 1 ∧ (a + 1) % c = 0 := by
          refine (Int.ediv_emod_unique hc).mpr ⟨?_, ?_, ?_⟩
          · rw [mul_add]
            omega
          · omega
          · omega
        omega
      · have hup : (a + 1) / c = a / c ∧ (a + 1) % c = a % c + 1 := by
          refine (Int.ediv_emod_unique hc).mpr ⟨?_, ?_, ?_⟩ <;> omega
        omega

/-! ### When raising is exact -/

section

variable (pc : ParallelContext V) (operands : AffineOperands V)

/-- What the expansion of a single node relies on: the range of a parallel variable starts at 0 or has step 1, no
remainder is of a negative multiple of its modulus, and no rounded up quotient is of a positive number that is, or
is one below, a multiple of the divisor. -/
def NodeOk : AffineExpr → Prop
  | .dim position =>
    let range := pc.getIVRange (operands.dims position)
    pc.isParallelIV (operands.dims position) → range.getNumIters ≤ 0 ∨ range.lb = 0 ∨ range.step = 1
  | .bin .mod lhs (.const c) => ∀ pos, pc.IsPoint (parallelIVs pc operands lhs) pos →
      ¬ (evalAt pc operands pos lhs < 0 ∧ c ∣ evalAt pc operands pos lhs)
  | .bin .ceilDiv lhs (.const c) => ∀ pos, pc.IsPoint (parallelIVs pc operands lhs) pos →
      evalAt pc operands pos lhs ≤ 0 ∨ ¬ c ∣ evalAt pc operands pos lhs ∧ ¬ c ∣ evalAt pc operands pos lhs + 1
  | _ => True

theorem raisesExactly_dim_iff (position : Nat) :
    RaisesExactly pc operands (.dim position) ↔ NodeOk pc operands (.dim position) := by
  rw [raisesExactly_iff, NodeOk]
  by_cases hpar : pc.isParallelIV (operands.dims position) = true
  · have hivs : parallelIVs pc operands (.dim position) = [operands.dims position] := by
      simp [parallelIVs, AffineExpr.dimPositions, hpar]
    have helem : ∀ pos, expandedAt pc operands pos (.dim position) =
        evalAt pc operands pos (.dim position) ↔ (pc.getIVRange (operands.dims position)).lb = 0 ∨
            (pc.getIVRange (operands.dims position)).step = 1 := fun pos => by
      simp only [expandedAt, evalAt, AffineExpr.eval, valueAt, hpar, if_true, InductionVariableRange.value]
      rw [add_mul, add_comm, add_left_inj, mul_right_eq_self₀, or_comm]
    have hextent : ∀ pos : V → Nat, pc.IsPoint [operands.dims position] pos ↔ pos (operands.dims position) <
          (pc.getIVRange (operands.dims position)).getNumIters.toNat := fun pos => by
      simp [ParallelContext.IsPoint, ParallelContext.extent, hpar]
    simp only [hivs, helem, hextent, hpar, true_implies]
    constructor
    · intro h
      by_cases hempty : (pc.getIVRange (operands.dims position)).getNumIters ≤ 0
      · exact .inl hempty
      · exact .inr (h (fun _ => 0) (by omega))
    · rintro (hempty | hok) pos hpos
      · omega
      · exact hok
  · refine iff_of_true (fun pos _ => ?_) fun h => absurd h hpar
    simp [expandedAt, evalAt, AffineExpr.eval, valueAt, hpar]

theorem raisesExactly_bin_iff (kind : AffineExprKind) {lhs rhs : AffineExpr}
    (hl : RaisesExactly pc operands lhs) (hr : RaisesExactly pc operands rhs) :
    RaisesExactly pc operands (.bin kind lhs rhs) ↔
      ∀ pos, pc.IsPoint (parallelIVs pc operands (.bin kind lhs rhs)) pos →
        kind.expand (evalAt pc operands pos lhs) (evalAt pc operands pos rhs) =
          kind.eval (evalAt pc operands pos lhs) (evalAt pc operands pos rhs) := by
  rw [raisesExactly_iff] at hl hr ⊢
  refine forall₂_congr fun pos hpos => ?_
  have hsplit : ∀ iv, iv ∈ parallelIVs pc operands lhs ∨ iv ∈ parallelIVs pc operands rhs → pos iv < pc.extent iv := by
    intro iv hiv
    refine hpos iv ?_
    simpa [parallelIVs, AffineExpr.dimPositions, filter_append] using hiv
  rw [expandedAt, hl pos fun iv hiv => hsplit iv (.inl hiv), hr pos fun iv hiv => hsplit iv (.inr hiv)]
  rfl

theorem raisesExactly_bin_iff_nodeOk {kind : AffineExprKind} {lhs rhs : AffineExpr}
    (hsupported : (AffineExpr.bin kind lhs rhs).Supported)
    (hl : RaisesExactly pc operands lhs) (hr : RaisesExactly pc operands rhs) :
    RaisesExactly pc operands (.bin kind lhs rhs) ↔ NodeOk pc operands (.bin kind lhs rhs) := by
  rw [raisesExactly_bin_iff pc operands kind hl hr]
  obtain ⟨-, -, hconst⟩ := hsupported
  have hivs : ∀ c, parallelIVs pc operands (.bin kind lhs (.const c)) = parallelIVs pc operands lhs := fun c => by
    simp [parallelIVs, AffineExpr.dimPositions]
  cases kind with
  | add | mul => exact iff_of_true (fun _ _ => rfl) trivial
  | mod =>
    obtain ⟨c, hc, rfl⟩ := hconst rfl
    rw [hivs]
    exact forall₂_congr fun pos _ => expand_mod_iff hc
  | floorDiv =>
    obtain ⟨c, hc, rfl⟩ := hconst rfl
    exact iff_of_true (fun pos _ => expand_floorDiv hc) trivial
  | ceilDiv =>
    obtain ⟨c, hc, rfl⟩ := hconst rfl
    rw [hivs]
    exact forall₂_congr fun pos _ => expand_ceilDiv_iff hc

theorem raisesExactly_subexprs_iff {e : AffineExpr} (hsupported : e.Supported) :
    (∀ e' ∈ e.subexprs, RaisesExactly pc operands e') ↔ ∀ e' ∈ e.subexprs, NodeOk pc operands e' := by
  induction e with
  | const value | sym position =>
    simp only [AffineExpr.subexprs, forall_mem_singleton]
    exact iff_of_true ((raisesExactly_iff pc operands _).mpr fun _ _ => rfl) trivial
  | dim position =>
    simp only [AffineExpr.subexprs, forall_mem_singleton]
    exact raisesExactly_dim_iff pc operands position
  | bin kind lhs rhs ihl ihr =>
    simp only [AffineExpr.subexprs, forall_mem_cons, forall_mem_append, ihl hsupported.1, ihr hsupported.2.1]
    refine and_congr_left ?_
    rintro ⟨hlhs, hrhs⟩
    exact raisesExactly_bin_iff_nodeOk pc operands hsupported
      ((ihl hsupported.1).mpr hlhs lhs lhs.mem_subexprs_self)
      ((ihr hsupported.2.1).mpr hrhs rhs rhs.mem_subexprs_self)

/-- An expression and all its subexpressions are raised exactly when every node is one the expansion gets right, and
values are aligned exactly when no map of the others names a variable twice. -/
theorem raises_and_aligns_iff {α : Type} {e : AffineExpr} (hsupported : e.Supported)
    {a : Tensor α} {src : List V} {bs : List (Tensor α)} {dsts : List (List V)}
    (ha : a.shape = affineMapShape pc src)
    (hbs : List.Forall₂ (fun b dst => b.shape = affineMapShape pc dst) bs dsts) :
    ((∀ e' ∈ e.subexprs, RaisesExactly pc operands e') ↔ ∀ e' ∈ e.subexprs, NodeOk pc operands e') ∧
      (AlignsExactly pc a src bs dsts ↔ ∀ dst ∈ dsts, dst.Nodup) :=
  ⟨raisesExactly_subexprs_iff pc operands hsupported, alignsExactly_iff ha hbs⟩

end

/-- `(2 * d0 + 3) floordiv 4` over positions 0, …, 4, and a scalar aligned with a vector. -/
theorem raises_and_aligns_floorDiv :
    let pc : ParallelContext Nat := ⟨[0], fun _ => ⟨0, 5, 1⟩⟩
    let operands : AffineOperands Nat := ⟨fun _ => 0, fun _ => 0, fun _ => 0⟩
    RaisesExactly pc operands (.bin .floorDiv (.bin .add (.bin .mul (.dim 0) (.const 2)) (.const 3)) (.const 4)) ∧
      AlignsExactly pc (Tensor.splat [] (7 : Int)) [] [Tensor.splat [5] 8] [[0]] := by
  intro pc operands
  have hscalar : (Tensor.splat [] (7 : Int)).shape = affineMapShape pc [] := rfl
  have hvector : List.Forall₂ (fun b dst => b.shape = affineMapShape pc dst)
      [Tensor.splat [5] (8 : Int)] [[0]] := .cons rfl .nil
  obtain ⟨hraises, haligns⟩ := raises_and_aligns_iff pc operands
    (e := .bin .floorDiv (.bin .add (.bin .mul (.dim 0) (.const 2)) (.const 3)) (.const 4))
    ⟨⟨⟨trivial, trivial, nofun⟩, trivial, nofun⟩, trivial, fun _ => ⟨4, by decide, rfl⟩⟩
    hscalar hvector
  refine ⟨hraises.mpr ?_ _ (AffineExpr.mem_subexprs_self _), haligns.mpr (by decide)⟩
  intro e' he'
  simp only [AffineExpr.subexprs, cons_append, nil_append, mem_cons, not_mem_nil, or_false] at he'
  rcases he' with rfl | rfl | rfl | rfl | rfl | rfl | rfl
  all_goals first | trivial | exact fun _ => .inr (.inl rfl)

/-- The variable of `for i = 1 to 5 step 2`, whose values are 1 and 3. -/
theorem not_raisesExactly_shifted :
    let pc : ParallelContext Nat := ⟨[0], fun _ => ⟨1, 5, 2⟩⟩
    let operands : AffineOperands Nat := ⟨fun _ => 0, fun _ => 0, fun _ => 0⟩
    (AffineExpr.dim 0).Supported ∧ ¬ RaisesExactly pc operands (.dim 0) := by
  refine ⟨trivial, ?_⟩
  rintro ⟨t, map, hexpand, -, -, -, hget⟩
  cases some.inj hexpand
  have hfirst := hget (fun _ => 0) (forall_mem_singleton.mpr (by decide))
  revert hfirst
  decide

end EnzymeJax
