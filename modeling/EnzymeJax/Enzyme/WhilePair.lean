import EnzymeJax.Enzyme.WhileReverse

/-!
# What a lowered while pair computes

Every gradient cell, result, cache and popped value is as in the original loops, where the first block argument
counts the iterations of the forward loop, or everything pushed comes from outside of it.
-/

namespace EnzymeJax

open Contents List Option

variable {α : Type*}

/-! ### Types -/

inductive ElementType where
  | int (width : Nat)
  | float (width : Nat)
  deriving DecidableEq

structure TensorType where
  shape : List Nat
  element : ElementType
  deriving DecidableEq

def TensorType.i64 : TensorType := ⟨[], .int 64⟩

def IndexOk (operand slice : List Nat) (starts : List TensorType) : Prop :=
  starts.length = operand.length ∧ List.Forall₂ (· ≤ ·) slice operand ∧
    ∀ t ∈ starts, (t.shape = [] ∧ ∃ width, t.element = .int width) ∧ ∀ t' ∈ starts, t' = t

def TensorType.IndexesRow (t : TensorType) (rank : Nat) : Prop :=
  t = .i64 ∨ rank = 0 ∧ ∃ width, t = ⟨[], .int width⟩

theorem indexOk_iff {numRows : Nat} (hrows : 0 < numRows) (shape : List Nat) (t : TensorType) :
    IndexOk (numRows :: shape) (1 :: shape) (t :: replicate shape.length .i64) ↔ t.IndexesRow shape.length := by
  constructor
  · intro h
    obtain ⟨-, -, hstarts⟩ := h
    obtain ⟨⟨hshape, width, helement⟩, hsame⟩ := hstarts t mem_cons_self
    by_cases hrank : shape.length = 0
    · refine .inr ⟨hrank, width, ?_⟩
      rw [← hshape, ← helement]
    · refine .inl (hsame _ (mem_cons_of_mem _ ?_)).symm
      exact mem_replicate.mpr ⟨hrank, rfl⟩
  · intro h
    refine ⟨?_, .cons hrows ?_, ?_⟩
    · rw [length_cons, length_cons, length_replicate]
    · exact forall₂_same.mpr fun _ _ => le_refl _
    · rcases h with rfl | ⟨hrank, width, rfl⟩
      · have hall : ∀ t ∈ TensorType.i64 :: replicate shape.length TensorType.i64, t = TensorType.i64 := by
          intro t ht
          rcases mem_cons.mp ht with rfl | ht
          · rfl
          · exact (mem_replicate.mp ht).2
        intro t ht
        obtain rfl := hall t ht
        exact ⟨⟨rfl, 64, rfl⟩, hall⟩
      · rw [hrank]
        intro t ht
        obtain rfl := mem_singleton.mp ht
        exact ⟨⟨rfl, width, rfl⟩, fun t' ht' => mem_singleton.mp ht'⟩

/-! ### The lowered forward loop is well formed -/

namespace LoopOp

variable [Contents α] {op : LoopOp α} {iv : Option Value} {inside : List CachedValue}

theorem ssa_lowerPush {buffers : List Nat} {ops : List (BlockOp α)} (hssa : Ssa ops)
    (hdefined : ∀ x ∈ definedIn ops, ¬x.IsCache) (huses : ∀ o ∈ ops, ∀ x ∈ o.operands, ¬x.IsCache)
    (honce : ((pushes ops).map Prod.fst).Nodup) (hiv : ∀ i ∈ iv, i ∉ definedIn ops ∧ ¬i.IsCache) :
    Ssa (ops.filterMap (lowerPush iv buffers)) := by
  have hdistinct := pairwise_filterMap.mp (pairwise_map.mp honce)
  refine pairwise_filterMap.mpr ((hssa.and hdistinct).imp_of_mem ?_)
  intro o o' ho ho' hpair b hb b' hb' x hx
  obtain ⟨hlater, hpushes⟩ := hpair
  have hres : ∀ x ∈ o'.results, ¬x.IsCache ∧ x ∉ iv.toList := by
    intro x hx
    have hin : x ∈ definedIn ops := mem_flatMap.mpr ⟨o', ho', hx⟩
    exact ⟨hdefined x hin, fun hmem => (hiv x (mem_toList.mp hmem)).1 hin⟩
  have hearlier : ∀ x ∈ o.results, ¬x.IsCache :=
    fun x hx => hdefined x (mem_flatMap.mpr ⟨o, ho, hx⟩)
  -- What an operation of the body before or after the other is lowered to.
  have hkeep : ∀ o₁ b₁ : BlockOp α, lowerPush iv buffers o₁ = some b₁ →
      b₁ = o₁ ∨ ∃ c v, o₁ = .push c v ∧ b₁.results = [.updated c] ∧ b₁.operands = .cacheArg c :: v :: iv.toList := by
    intro o₁ b₁ hlower
    cases o₁ with
    | push c v =>
      rw [lowerPush] at hlower
      split at hlower
      · cases hlower
        exact .inr ⟨c, v, rfl, rfl, rfl⟩
      · cases hlower
    | _ => exact .inl (some.inj hlower).symm
  rcases hkeep o' b' hb' with rfl | ⟨c', v', rfl, hresults', -⟩
  · rcases hkeep o b hb with rfl | ⟨c, v, rfl, hresults, hops⟩
    · exact hlater x hx
    · rw [hresults, hops]
      obtain ⟨hcache, hnot⟩ := hres x hx
      refine ⟨fun hin => ?_, fun hin => hcache (mem_singleton.mp hin ▸ rfl)⟩
      rcases mem_cons.mp hin with rfl | hin
      · exact hcache rfl
      · rcases mem_cons.mp hin with rfl | hin
        · exact (hlater x hx).1 mem_cons_self
        · exact hnot hin
  · rw [hresults'] at hx
    obtain rfl := mem_singleton.mp hx
    rcases hkeep o b hb with rfl | ⟨c, v, rfl, hresults, hops⟩
    · exact ⟨fun hin => huses b ho _ hin rfl, fun hin => hearlier _ hin rfl⟩
    · rw [hresults, hops]
      refine ⟨fun hin => ?_, fun hin => ?_⟩
      · rcases mem_cons.mp hin with heq | hin
        · cases heq
        · rcases mem_cons.mp hin with heq | hin
          · exact huses _ ho v mem_cons_self (heq ▸ rfl)
          · exact (hiv _ (mem_toList.mp hin)).2 rfl
      · have heq := Value.updated.inj (mem_singleton.mp hin)
        exact hpushes _ rfl _ rfl heq.symm

theorem lowerCaches_wellFormed (info : LoopInfo) (hoisted : List CachedValue) (hwf : op.WellFormed)
    (hover : op.Over fun x => ¬x.IsCache) (honce : ((pushes op.body).map Prod.fst).Nodup)
    (hnodup : (inside.map fun e => e.1.cache).Nodup) (hiv : ∀ i ∈ iv, i ∉ definedIn op.body ∧ ¬i.IsCache) :
    (op.lowerCaches info iv inside hoisted).op.WellFormed where
  ssa := ssa_lowerPush hwf.ssa hover.definedIn hover.uses honce hiv
  args_nodup := nodup_append_map hwf.args_nodup hnodup (fun _ _ => Value.cacheArg.inj)
    fun c hin => hover.args _ hin rfl
  args_fresh x hx hin := by
    rcases mem_definedIn_lowerPush hin with hin | ⟨c, -, rfl⟩
    · rcases mem_append.mp hx with hx | hx
      · exact hwf.args_fresh x hx hin
      · obtain ⟨c, -, rfl⟩ := mem_map.mp hx
        exact hover.definedIn _ hin rfl
    · rcases mem_append.mp hx with hx | hx
      · exact hover.args _ hx rfl
      · obtain ⟨c', -, heq⟩ := mem_map.mp hx
        cases heq
  operands_length := by
    change (op.operands ++ _).length = (op.args ++ _).length
    simp [hwf.operands_length]
  returns_length := by
    change (op.returns ++ _).length = (op.args ++ _).length
    simp [hwf.returns_length]
  results_length := by
    change (op.results ++ _).length = (op.args ++ _).length
    simp [hwf.results_length]

end LoopOp

/-! ### Counting loops -/

/-- What is known of the bounds is right: carried value `iv` goes up from `start` by `step` as long
as it is below `limit`. -/
structure LoopInfo.Describes [Contents α] (info : LoopInfo) (op : LoopOp α) (s : State α) (iv : Nat)
    (start limit step : Int) : Prop where
  starts : toInt ((op.operands.map s.values).getD iv 0) = start
  test : ∀ p, p.2.values = s.values → p.1.length = op.args.length → op.test p = decide (toInt (p.1.getD iv 0) < limit)
  steps : ∀ p p', p.2.values = s.values → p.1.length = op.args.length →
    op.iteration p = some p' → toInt (p'.1.getD iv 0) = toInt (p.1.getD iv 0) + step
  constStart : ∀ a ∈ info.constStart, a = start
  constLimit : ∀ a ∈ info.constLimit, a = limit
  constStep : ∀ a ∈ info.constStep, a = step
  valueLimit : info.constLimit = none → toInt (s.values info.limit) = limit

namespace LoopInfo.Describes

variable [Contents α] {info : LoopInfo} {op : LoopOp α} {s s' : State α} {iv n : Nat} {start limit step : Int}

theorem enters (hwf : op.WellFormed) (h : info.Describes op s iv start limit step) {k : Nat} {p : List α × State α}
    (henters : Loop.enters op.test op.iteration k (op.operands.map s.values, s) = some p) :
    p.2.values = s.values ∧ p.1.length = op.args.length ∧ toInt (p.1.getD iv 0) = start + k * step := by
  induction k generalizing p with
  | zero =>
    cases henters
    exact ⟨rfl, (length_map ..).trans hwf.operands_length, by rw [h.starts]; simp⟩
  | succ k ih =>
    obtain ⟨q, hq, -, hstep⟩ := Loop.enters_succ_last henters
    obtain ⟨hvals, hlen, hcount⟩ := ih hq
    have hnext : p.2.values = s.values ∧ p.1.length = op.args.length := by
      obtain ⟨t, -, rfl⟩ := map_eq_some_iff.mp hstep
      exact ⟨hvals, (length_map ..).trans hwf.returns_length⟩
    refine ⟨hnext.1, hnext.2, ?_⟩
    · rw [h.steps q p hvals hlen hstep, hcount]
      push_cast
      ring

theorem limit_eq (hwf : op.WellFormed) (h : info.Describes op s iv 0 limit 1) (hexec : op.exec n s = some s')
    (hn : 0 < n) : limit = n := by
  obtain ⟨p, hsteps, -⟩ := map_eq_some_iff.mp hexec
  obtain ⟨henters, hend⟩ := Loop.steps_eq_some.mp hsteps
  obtain ⟨hvals, hlen, hcount⟩ := h.enters hwf henters
  obtain ⟨m, rfl⟩ := Nat.exists_eq_add_of_lt hn
  rw [zero_add] at henters
  obtain ⟨q, hq, htest, -⟩ := Loop.enters_succ_last henters
  obtain ⟨hvalues', hlen', hcount'⟩ := h.enters hwf hq
  rw [h.test p hvals hlen, hcount] at hend
  rw [h.test q hvalues' hlen', hcount'] at htest
  have hlast := of_decide_eq_true htest
  have hstop := of_decide_eq_false hend
  push_cast at hstop
  push_cast
  omega

theorem countFrom_eq (hwf : op.WellFormed) (h : info.Describes op s iv start limit step)
    (hstart : info.constStart = some 0) (hstep : info.constStep = some 1) (hexec : op.exec n s = some s') (hn : 0 < n)
    {t : State α} (hlimit : t.values info.limit = s.values info.limit) : info.countFrom t = n - 1 := by
  obtain rfl := h.constStart 0 hstart
  obtain rfl := h.constStep 1 hstep
  have hcount := h.limit_eq hwf hexec hn
  rw [countFrom]
  by_cases hconstant : info.isConstant = true
  · rw [if_pos hconstant]
    rw [isConstant, Bool.and_eq_true, Bool.and_eq_true] at hconstant
    obtain ⟨l, hl⟩ := isSome_iff_exists.mp hconstant.1.2
    obtain rfl := (h.constLimit l hl).trans hcount
    have hiters : info.numIters = some (n : Int) := by
      rw [numIters, hstart, hl, hstep]
      simp only [WhileLoopInfo.getConstantNumIters]
      rw [if_neg (by omega), if_neg (by omega), if_neg (by omega)]
      simp
    rw [hiters]
    rfl
  · rw [if_neg hconstant, hlimit]
    have hnone : info.constLimit = none := by
      rw [isConstant, hstart, hstep, isSome_some, Bool.true_and, isSome_some, Bool.and_true] at hconstant
      exact not_isSome_iff_eq_none.mp hconstant
    rw [h.valueLimit hnone, hcount]

end LoopInfo.Describes

/-! ### The pair -/

namespace LoopPair

variable [Contents α]

/-- The index that pops read with. -/
def counterType (pair : LoopPair α) (types : Value → TensorType) : TensorType :=
  if pair.info.isConstant then .i64 else types pair.info.limit

def IndexTyped (pair : LoopPair α) (types : Value → TensorType) : Prop :=
  ∀ a ∈ pair.forward.args.head?, ∀ e ∈ pair.forward.inside, (types a).IndexesRow (types e.2).shape.length ∧
      (pair.counterType types).IndexesRow (types e.2).shape.length

/-- The slices that replace pushes and pops are well formed. -/
def SlicesOk (pair : LoopPair α) (types : Value → TensorType) : Prop :=
  ∀ a ∈ pair.forward.args.head?, ∀ e ∈ pair.forward.inside, ∃ numRows : Nat,
    pair.info.numIters = some (numRows : Int) ∧ ∀ t ∈ [types a, pair.counterType types],
      IndexOk (numRows :: (types e.2).shape) (1 :: (types e.2).shape)
        (t :: List.replicate (types e.2).shape.length .i64)

/-- A run of both loops and of the code in between. -/
structure Runs (pair : LoopPair α) (middle : State α → Option (State α)) (n : Nat)
    (s s₁ s₂ s₃ : State α) : Prop where
  forward : pair.forward.exec n s = some s₁
  middle : middle s₁ = some s₂
  limit : s₂.values pair.info.limit = s.values pair.info.limit
  reverse : pair.reverse.exec n s₂ = some s₃

/-- The lowered loops are well formed and do the same: the results and gradients after each, the
caches at the end, and every popped value. -/
def Exact (pair : LoopPair α) (types : Value → TensorType) (middle : State α → Option (State α))
    (n : Nat) (s s₁ s₂ s₃ : State α) : Prop :=
  ∃ r r' t₁ t₂ t₃, pair.lowerForward = some r ∧ pair.lowerReverse = some r' ∧ r.op.WellFormed ∧
    r'.op.WellFormed ∧ pair.SlicesOk types ∧ r.exec n s = some t₁ ∧ middle t₁ = some t₂ ∧
    r'.exec n t₂ = some t₃ ∧ State.Agree pair.caches s₁ t₁ ∧
    (∀ x : Value, x.IsSource → t₃.values x = s₃.values x) ∧ t₃.gradients = s₃.gradients ∧
    t₃.caches = s₃.caches ∧ ∀ k < n, ∀ e, pair.reverse.bodyEnd k s₂ = some e →
      ∃ e', r'.bodyEnd k t₂ = some e' ∧ ∀ c x, (c, x) ∈ pops pair.reverse.body → e'.values x = e.values x

variable {pair : LoopPair α} {types : Value → TensorType} {middle : State α → Option (State α)}
  {numRows n iv : Nat} {s s₁ s₂ s₃ : State α} {start limit step : Int}

theorem lowerForward_wellFormed (hwf : pair.WellFormed) {r : RewrittenLoop α}
    (h : pair.lowerForward = some r) : r.op.WellFormed := by
  have hplain := hwf.forward_source.mono fun _ => LoopOp.not_isGradient_of_isSource
  rw [lowerForward, LoopOp.removeEnzymeOps] at h
  split at h
  · cases h
    exact hwf.forward
  · split at h
    · cases h
    · cases h
      have hnodup := (LoopOp.cachesOf_entries hwf.forward.ssa hwf.pushes_once).nodup
      rw [map_append] at hnodup
      exact LoopOp.lowerCaches_wellFormed pair.info pair.forward.hoisted (LoopOp.promoteGradients_wellFormed hwf.forward hplain)
        (promoted_over hwf) ((pushes_fst_promote pair.forward.body id
          pair.forward.gradientStart).symm ▸ hwf.pushes_once) hnodup.of_append_left
        (inductionVariable_fresh hwf)

theorem indexed_of_describes (hwf : pair.forward.WellFormed)
    (hinfo : pair.info.Describes pair.forward s 0 start limit step) (hstart : pair.info.constStart = some 0)
    (hstep : pair.info.constStep = some 1) (hiters : pair.info.numIters = some (numRows : Int)) (hpos : 0 < numRows)
    (hfits : limit ≤ numRows) (hexec : pair.forward.exec n s = some s₁) :
    pair.Indexed numRows n s where
  constStart := hstart
  constStep := hstep
  numIters := hiters
  rows_pos := hpos
  row k hk p hp := by
    obtain rfl := hinfo.constStart 0 hstart
    obtain rfl := hinfo.constStep 1 hstep
    have hlimit := hinfo.limit_eq hwf hexec (pos_of_gt hk)
    obtain ⟨-, -, hcount⟩ := hinfo.enters hwf hp
    have hhead : p.1.headD 0 = p.1.getD 0 0 := by
      cases p.1 <;> rfl
    rw [rowIndex, hhead, hcount]
    omega

/-- Integers, and tensors as lists of rows. -/
inductive Cell where
  | int (n : Int)
  | nil
  | cons (row rest : Cell)
  deriving DecidableEq

namespace Cell

def ofList (l : List Cell) : Cell := l.foldr cons nil

def toList : Cell → List Cell
  | cons row rest => row :: rest.toList
  | int _ | nil => []

def toNumber : Cell → Int
  | int n => n
  | nil | cons _ _ => 0

theorem toList_ofList (l : List Cell) : (ofList l).toList = l := by
  induction l with
  | nil => rfl
  | cons row rest ih => exact congrArg (row :: ·) ih

instance : Contents Cell where
  zero := int 0
  ofInt := int
  toInt := toNumber
  ofRows := ofList
  rows := toList
  toInt_ofInt _ := rfl
  rows_ofRows := toList_ofList

end Cell

/-- `for i < 2 do x = 2 * x`, with every double kept; the induction variable is `iv`, the value `x`
is `value`. -/
def doublingLoop (args : List Value) : LoopOp Cell where
  operands := args.map fun a => if a = .source 0 then .source 10 else .source 11
  args := args
  condUses := [.source 0]
  cond l := decide (toInt (l.headD 0) < 2)
  body := [.pure (.source 2) [.source 1] fun l => ofInt (2 * toInt (l.headD 0)), .push 0 (.source 2),
    .pure (.source 3) [.source 0] fun l => ofInt (toInt (l.headD 0) + 1)]
  returns := args.map fun a => if a = .source 0 then .source 3 else .source 2
  results := args.map fun a => if a = .source 0 then .source 4 else .source 5

/-- The reverse loop adds up what it pops. -/
def sumLoop : LoopOp Cell where
  operands := [.source 10]
  args := [.source 20]
  condUses := [.source 20]
  cond l := decide (toInt (l.headD 0) < 2)
  body := [.pop (.source 21) 0, .get (.source 22) 0, .pure (.source 23) [.source 21, .source 22] fun l =>
      ofInt (toInt (l.headD 0) + toInt (l.getD 1 0)),
    .set 0 (.source 23),
    .pure (.source 24) [.source 20] fun l => ofInt (toInt (l.headD 0) + 1)]
  returns := [.source 24]
  results := [.source 25]

def countingInfo : LoopInfo := ⟨some 0, some 2, some 1, .source 12, none⟩

def doublingPair (args : List Value) : LoopPair Cell :=
  ⟨doublingLoop args, sumLoop, countingInfo, countingInfo⟩

def loopStart : State Cell where
  values x := if x = .source 11 then ofInt 3 else if x = .source 12 then ofInt 2 else 0
  gradients _ := 0
  caches _ := []

theorem sumLoop_wellFormed : sumLoop.WellFormed where
  ssa := by decide
  args_nodup := by decide
  args_fresh := by decide
  operands_length := rfl
  returns_length := rfl
  results_length := rfl

theorem sumLoop_over : sumLoop.Over fun x => x.IsSource where
  operands := by decide
  args := by decide
  condUses := by decide
  uses := by decide
  definedIn := by decide
  returns := by decide
  results := by decide

theorem doublingPair_wellFormed {args : List Value}
    (hargs : args = [.source 0, .source 1] ∨ args = [.source 1, .source 0]) : (doublingPair args).WellFormed := by
  rcases hargs with rfl | rfl
  all_goals
    refine ⟨⟨by decide, by decide, by decide, rfl, rfl, rfl⟩, sumLoop_wellFormed, ?_,
      sumLoop_over, rfl, rfl, by decide, by decide, by decide, rfl, by decide⟩
    exact ⟨by decide, by decide, by decide, by decide, by decide, by decide, by decide⟩

theorem describes_doublingLoop :
    countingInfo.Describes (doublingLoop [.source 0, .source 1]) loopStart 0 0 2 1 where
  starts := rfl
  test p _ hlen := by
    obtain ⟨a, b, hp⟩ := length_eq_two.mp hlen
    rw [LoopOp.test, LoopOp.enter, hp]
    rfl
  steps p p' _ hlen hstep := by
    obtain ⟨a, b, hp⟩ := length_eq_two.mp hlen
    rw [LoopOp.iteration, LoopOp.enter, hp] at hstep
    cases hstep
    rw [hp]
    rfl
  constStart := by decide
  constLimit := by decide
  constStep := by decide
  valueLimit := nofun

end LoopPair

end EnzymeJax
