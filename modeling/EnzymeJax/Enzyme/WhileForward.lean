import EnzymeJax.Enzyme.WhileCaches

/-!
# What a lowered forward loop computes

The lowered loop computes the results and gradients of the loop, and hands over what was pushed, where the first
block argument counts the iterations, or everything pushed comes from outside.
-/

namespace EnzymeJax

open Contents List Option

variable {α : Type*}

/-! ### The loop with promoted gradients -/

theorem nodup_setVector (l : List Nat) : (setVector l).Nodup := by
  have hfold : ∀ gs : List Nat, gs.Nodup → (l.foldl (fun gs g => if g ∈ gs then gs else gs ++ [g]) gs).Nodup := by
    induction l with
    | nil => exact fun gs h => h
    | cons g l ih =>
      intro gs h
      refine ih _ ?_
      change (if g ∈ gs then gs else gs ++ [g]).Nodup
      by_cases hmem : g ∈ gs
      · rwa [if_pos hmem]
      · rw [if_neg hmem]
        exact nodup_append'.mpr ⟨h, nodup_singleton g, disjoint_singleton.mpr hmem⟩
  exact hfold [] nodup_nil

theorem nodup_append_map {xs : List Value} (hxs : xs.Nodup) {l : List Nat} (hl : l.Nodup) {name : Nat → Value}
    (hname : ∀ a b, name a = name b → a = b) (hnew : ∀ a, name a ∉ xs) : (xs ++ l.map name).Nodup := by
  refine nodup_append'.mpr ⟨hxs, hl.map_on fun a _ b _ => hname a b, fun x hx hin => ?_⟩
  obtain ⟨a, -, rfl⟩ := mem_map.mp hin
  exact hnew a hx

namespace LoopOp

variable {op : LoopOp α}

theorem Over.mono {P Q : Value → Prop} (h : op.Over P) (himp : ∀ x, P x → Q x) : op.Over Q where
  operands x hx := himp x (h.operands x hx)
  args x hx := himp x (h.args x hx)
  condUses x hx := himp x (h.condUses x hx)
  uses o ho x hx := himp x (h.uses o ho x hx)
  definedIn x hx := himp x (h.definedIn x hx)
  returns x hx := himp x (h.returns x hx)
  results x hx := himp x (h.results x hx)

variable {x v : Value} {c : Nat} {e : CachedValue}

theorem not_isGradient_of_isSource (hx : x.IsSource) : ¬x.IsGradient := by
  obtain ⟨n, rfl⟩ := Value.eq_source_of_isSource hx
  exact Bool.false_ne_true

theorem not_isCache_of_isSource (hx : x.IsSource) : ¬x.IsCache := by
  obtain ⟨n, rfl⟩ := Value.eq_source_of_isSource hx
  exact Bool.false_ne_true

theorem gradientStart_isGradient (op : LoopOp α) (g : Nat) : (op.gradientStart g).IsGradient := by
  rw [gradientStart]
  split <;> rfl

theorem promoteGradients_wellFormed (hwf : op.WellFormed) (hover : op.Over fun x => ¬x.IsGradient) :
    op.promoteGradients.op.WellFormed where
  ssa := ssa_promote hwf.ssa (fun _ _ _ hx => hx) fun r hr g heq =>
    hover.definedIn r hr (heq ▸ gradientStart_isGradient op g)
  args_nodup := nodup_append_map hwf.args_nodup (nodup_setVector _)
    (fun _ _ => Value.gradientArg.inj) fun g hin => hover.args _ hin rfl
  args_fresh x hx hin := by
    have hin := definedIn_promote hin
    rcases mem_append.mp hx with hx | hx
    · exact hwf.args_fresh x hx hin
    · obtain ⟨g, -, rfl⟩ := mem_map.mp hx
      exact hover.definedIn _ hin rfl
  operands_length := by
    change (op.operands ++ op.updatedGradients.map Value.outerGet).length =
      (op.args ++ op.updatedGradients.map Value.gradientArg).length
    simp [hwf.operands_length]
  returns_length := by
    change (op.returns.map _ ++ op.updatedGradients.map _).length =
      (op.args ++ op.updatedGradients.map Value.gradientArg).length
    simp [hwf.returns_length]
  results_length := by
    change (op.results ++ op.updatedGradients.map Value.gradient).length =
      (op.args ++ op.updatedGradients.map Value.gradientArg).length
    simp [hwf.results_length]

theorem promoteGradients_over {P : Value → Prop} (hover : op.Over P)
    (hgradients : ∀ x : Value, x.IsGradient → P x) : op.promoteGradients.op.Over P := by
  obtain ⟨huses, hrename, hcurrent⟩ := over_promote hover.uses id
    op.gradientStart (fun _ hx => hx) fun g => hgradients _ (gradientStart_isGradient op g)
  have hnames : ∀ name : Nat → Value, (∀ g, (name g).IsGradient) → ∀ x ∈ op.updatedGradients.map name, P x := by
    intro name hname x hx
    obtain ⟨g, -, rfl⟩ := mem_map.mp hx
    exact hgradients _ (hname g)
  refine ⟨?_, ?_, hover.condUses, huses, fun x hx => hover.definedIn x (definedIn_promote hx), ?_, ?_⟩
  · exact forall_mem_append.mpr ⟨hover.operands, hnames _ fun _ => rfl⟩
  · exact forall_mem_append.mpr ⟨hover.args, hnames _ fun _ => rfl⟩
  · refine forall_mem_append.mpr ⟨fun x hx => ?_, fun x hx => ?_⟩
    · obtain ⟨y, hy, rfl⟩ := mem_map.mp hx
      exact hrename y (hover.returns y hy)
    · obtain ⟨g, -, rfl⟩ := mem_map.mp hx
      exact hcurrent g
  · exact forall_mem_append.mpr ⟨hover.results, hnames _ fun _ => rfl⟩

/-! ### The entries of the forward loop -/

theorem lookup_of_mem {l : List (Nat × Value)} (hl : (l.map Prod.fst).Nodup) (h : (c, v) ∈ l) :
    l.lookup c = some v := by
  induction l with
  | nil => cases h
  | cons q l ih =>
    obtain ⟨hq, hl⟩ := nodup_cons.mp hl
    rcases mem_cons.mp h with rfl | h
    · exact lookup_cons_self
    · have hne : (c == q.1) = false := beq_eq_false_iff_ne.mpr fun heq => hq (heq ▸ fst_mem h)
      rw [lookup_cons, hne]
      exact ih hl h

theorem mem_pushedCaches :
    (∃ info, (v, info) ∈ op.pushedCaches ∧ c ∈ info.members) ↔ (c, v) ∈ pushes op.body := by
  rw [pushedCaches, mem_members_foldl]
  exact or_iff_right fun h => not_mem_nil h.choose_spec.1

theorem cache_mem_pushedCaches : ∀ p ∈ op.pushedCaches, p.2.cache ∈ p.2.members :=
  cache_mem_foldl nofun

theorem keys_nodup_pushedCaches : (op.pushedCaches.map Prod.fst).Nodup :=
  nodup_foldl nodup_nil

theorem pushedCaches_unique (honce : ((pushes op.body).map Prod.fst).Nodup) {p p' : Value × CacheInfo}
    (hp : p ∈ op.pushedCaches) (hp' : p' ∈ op.pushedCaches) (hc : c ∈ p.2.members) (hc' : c ∈ p'.2.members) :
    p = p' := by
  have hpush := mem_pushedCaches.mp ⟨p.2, hp, hc⟩
  have hpush' := mem_pushedCaches.mp ⟨p'.2, hp', hc'⟩
  have hval := congrArg Prod.snd (inj_on_of_nodup_map honce hpush hpush' rfl)
  exact inj_on_of_nodup_map keys_nodup_pushedCaches hp hp' hval

theorem cachedValues_eq (hssa : Ssa op.body) (honce : ((pushes op.body).map Prod.fst).Nodup) :
    op.promoteGradients.op.cachedValues op.pushedCaches = op.pushedCaches.map fun p =>
      (p.2, (promote op.body id op.gradientStart).rename p.1) := by
  rw [cachedValues, ← filterMap_eq_map]
  refine filterMap_congr fun p hp => ?_
  have hpush := mem_pushedCaches.mp ⟨p.2, hp, cache_mem_pushedCaches p hp⟩
  have hlookup : (pushes op.promoteGradients.op.body).lookup p.2.cache =
      some ((promote op.body id op.gradientStart).rename p.1) := by
    refine lookup_of_mem ?_ ?_
    · exact (pushes_fst_promote op.body id op.gradientStart).symm ▸ honce
    · change _ ∈ pushes (promote op.body id op.gradientStart).ops
      rw [pushes_promote hssa]
      exact mem_map.mpr ⟨_, hpush, rfl⟩
  rw [hlookup]
  rfl

theorem entries_perm (op : LoopOp α) : (op.inside ++ op.hoisted).Perm
    (op.promoteGradients.op.cachedValues op.pushedCaches) :=
  filter_append_perm _ _

section

variable (hssa : Ssa op.body) (honce : ((pushes op.body).map Prod.fst).Nodup)

include hssa honce

theorem mem_entries : e ∈ op.inside ++ op.hoisted ↔ ∃ p ∈ op.pushedCaches,
      e = (p.2, (promote op.body id op.gradientStart).rename p.1) := by
  rw [(entries_perm op).mem_iff, cachedValues_eq hssa honce, List.mem_map]
  exact exists_congr fun p => and_congr_right fun _ => eq_comm

theorem cachesOf_entries : op.promoteGradients.op.CachesOf (op.inside ++ op.hoisted) where
  nodup := by
    refine (((entries_perm op).map fun e => e.1.cache).nodup_iff).mpr ?_
    rw [cachedValues_eq hssa honce, List.map_map]
    refine (Nodup.of_map _ keys_nodup_pushedCaches).map_on fun p hp p' hp' heq => ?_
    refine pushedCaches_unique honce hp hp' (cache_mem_pushedCaches p hp) ?_
    have hcache : p.2.cache = p'.2.cache := heq
    exact hcache ▸ cache_mem_pushedCaches p' hp'
  cache_mem e he := by
    obtain ⟨p, hp, rfl⟩ := (mem_entries hssa honce).mp he
    exact cache_mem_pushedCaches p hp
  unique e he e' he' c hc hc' := by
    obtain ⟨p, hp, rfl⟩ := (mem_entries hssa honce).mp he
    obtain ⟨p', hp', rfl⟩ := (mem_entries hssa honce).mp he'
    rw [pushedCaches_unique honce hp hp' hc hc']
  mem_pushes c v := by
    change (c, v) ∈ pushes (promote op.body id op.gradientStart).ops ↔ _
    rw [pushes_promote hssa, List.mem_map]
    constructor
    · intro h
      obtain ⟨⟨c, u⟩, hu, heq⟩ := h
      cases heq
      obtain ⟨info, hinfo, hc⟩ := mem_pushedCaches.mpr hu
      exact ⟨_, (mem_entries hssa honce).mpr ⟨_, hinfo, rfl⟩, hc, rfl⟩
    · intro h
      obtain ⟨e, he, hc, rfl⟩ := h
      obtain ⟨p, hp, rfl⟩ := (mem_entries hssa honce).mp he
      exact ⟨(c, p.1), mem_pushedCaches.mp ⟨p.2, hp, hc⟩, rfl⟩

theorem mem_members :
    (∃ e ∈ op.inside ++ op.hoisted, c ∈ e.1.members) ↔ c ∈ (pushes op.body).map Prod.fst := by
  rw [List.mem_map]
  constructor
  · intro h
    obtain ⟨e, he, hc⟩ := h
    obtain ⟨p, hp, rfl⟩ := (mem_entries hssa honce).mp he
    exact ⟨_, mem_pushedCaches.mp ⟨p.2, hp, hc⟩, rfl⟩
  · intro h
    obtain ⟨⟨c, v⟩, hv, rfl⟩ := h
    obtain ⟨info, hinfo, hc⟩ := mem_pushedCaches.mpr hv
    exact ⟨_, (mem_entries hssa honce).mpr ⟨_, hinfo, rfl⟩, hc⟩

end

theorem outside_of_mem_hoisted (he : e ∈ op.hoisted) :
    e.2 ∉ op.promoteGradients.op.args ∧ e.2 ∉ definedIn op.promoteGradients.op.body := by
  have hnot := (mem_filter.mp he).2
  simpa [definedInBody] using hnot

end LoopOp

/-! ### The forward loop -/

namespace LoopPair

/-- Every cache is pushed to once in an iteration of the forward loop, and popped once in one of the
reverse loop. The forward loop has an induction variable. -/
structure WellFormed (pair : LoopPair α) : Prop where
  forward : pair.forward.WellFormed
  reverse : pair.reverse.WellFormed
  forward_source : pair.forward.Over fun x => x.IsSource
  reverse_source : pair.reverse.Over fun x => x.IsSource
  forward_pops : pops pair.forward.body = []
  reverse_pushes : pushes pair.reverse.body = []
  pushes_once : ((pushes pair.forward.body).map Prod.fst).Nodup
  pops_once : ((pops pair.reverse.body).map Prod.fst).Nodup
  popped : ∀ c ∈ (pushes pair.forward.body).map Prod.fst, c ∈ (pops pair.reverse.body).map Prod.fst
  limit_source : pair.info.limit.IsSource
  args_ne_nil : pair.forward.args ≠ []

def caches (pair : LoopPair α) : List Nat := (pushes pair.forward.body).map Prod.fst

variable [Contents α]

/-- In a run of `n` iterations from `s`, the first block argument selects row `k` in iteration
`k`. -/
structure Indexed (pair : LoopPair α) (numRows n : Nat) (s : State α) : Prop where
  constStart : pair.info.constStart = some 0
  constStep : pair.info.constStep = some 1
  numIters : pair.info.numIters = some (numRows : Int)
  rows_pos : 0 < numRows
  row : ∀ k < n, ∀ p, Loop.enters pair.forward.test pair.forward.iteration k
    (pair.forward.operands.map s.values, s) = some p → rowIndex numRows (toInt (p.1.headD 0)) = k

end LoopPair

theorem RewrittenLoop.around_exec {outer inner : RewrittenLoop α} {n : Nat} {s t t' t'' : State α}
    (hbefore : runBlock outer.before s = some t) (hinner : inner.exec n t = some t')
    (hafter : runBlock outer.after t' = some t'') : (outer.around inner).exec n s = some t'' := by
  rw [exec] at hinner ⊢
  obtain ⟨u, hu, hrest⟩ := bind_eq_some_iff.mp hinner
  obtain ⟨u', hu', hend⟩ := bind_eq_some_iff.mp hrest
  refine bind_eq_some_iff.mpr ⟨u, ?_, bind_eq_some_iff.mpr ⟨u', hu', ?_⟩⟩
  · rw [around, runBlock_append, hbefore]
    exact hu
  · rw [around, runBlock_append, hend]
    exact hafter

namespace LoopPair

variable [Contents α] {pair : LoopPair α} {numRows n : Nat} {s s₁ s₂ s₃ : State α}

theorem rowIndex_lt {numRows : Nat} (hpos : 0 < numRows) (i : Int) :
    rowIndex numRows i < numRows := by
  rw [rowIndex]
  omega

omit [Contents α] in
theorem assign_head {values : Value → α} {a : Value} {xs : List Value} {as : List α} (d : α)
    (hnodup : (a :: xs).Nodup) (hlen : as.length = (a :: xs).length) : assign values (a :: xs) as a = as.headD d := by
  obtain ⟨b, bs, rfl⟩ := exists_cons_of_length_eq_add_one hlen
  rw [assign, assign_of_notMem (nodup_cons.mp hnodup).1, Function.update_self]
  rfl

theorem inductionVariable_eq (hindexed : pair.Indexed numRows n s) {a : Value} {rest : List Value}
    (hargs : pair.forward.args = a :: rest) : pair.forward.inductionVariable pair.info = some a := by
  rw [LoopOp.inductionVariable, if_pos ⟨hindexed.constStart, hindexed.constStep⟩, hargs]
  rfl

omit [Contents α] in
theorem promoted_over (hwf : pair.WellFormed) :
    pair.forward.promoteGradients.op.Over fun x => ¬x.IsCache := by
  refine LoopOp.promoteGradients_over
    (hwf.forward_source.mono fun _ => LoopOp.not_isCache_of_isSource) fun x hx hcache => ?_
  cases x <;> cases hx <;> cases hcache

omit [Contents α] in
theorem inductionVariable_fresh (hwf : pair.WellFormed) :
    ∀ i ∈ pair.forward.inductionVariable pair.info,
      i ∉ definedIn pair.forward.promoteGradients.op.body ∧ ¬i.IsCache := by
  intro i hi
  rw [LoopOp.inductionVariable] at hi
  split at hi
  · have hmem : i ∈ pair.forward.args := mem_of_mem_head? hi
    refine ⟨fun hin => ?_, LoopOp.not_isCache_of_isSource (hwf.forward_source.args i hmem)⟩
    exact hwf.forward.args_fresh i hmem (definedIn_promote hin)
  · cases hi

/-- The lowered forward loop agrees with the original one off the caches of the pair, and hands
over what was pushed. -/
theorem lowerForward_exec (hwf : pair.WellFormed) (hindexed : pair.forward.inside ≠ [] → pair.Indexed numRows n s)
    (h : pair.forward.exec n s = some s₁) :
    ∃ r t₁ pushed, pair.lowerForward = some r ∧ r.exec n s = some t₁ ∧ State.Agree pair.caches s₁ t₁ ∧
      LoopOp.Handed pair.forward.inside pair.forward.hoisted numRows n s s₁ t₁ pushed := by
  have hplain := hwf.forward_source.mono fun _ => LoopOp.not_isGradient_of_isSource
  have hcaches := LoopOp.cachesOf_entries hwf.forward.ssa hwf.pushes_once
  obtain ⟨t₀, tA, hbefore, hvalues₀, hcaches₀, hexec, hvaluesA, hcachesA, hgradientsA, -⟩ :=
    LoopOp.promoteGradients_exec hwf.forward hplain h
  have hindex : pair.forward.inside ≠ [] → ∀ k < n, ∀ q,
      Loop.enters pair.forward.promoteGradients.op.test pair.forward.promoteGradients.op.iteration k
        (pair.forward.promoteGradients.op.operands.map t₀.values, t₀) = some q →
      rowIndex numRows (toInt (startIndex (pair.forward.inductionVariable pair.info)
        (pair.forward.promoteGradients.op.enter q))) = k ∧ k < numRows := by
    intro hinside k hk q hq
    have hindexed := hindexed hinside
    obtain ⟨p, hp, hpq⟩ := LoopOp.promoteGradients_enters hwf.forward hplain h hbefore hk.le hq
    obtain ⟨a, rest, hargs⟩ := exists_cons_of_ne_nil hwf.args_ne_nil
    have hsrc : a.IsSource := hwf.forward_source.args a (hargs ▸ mem_cons_self)
    have hval : startIndex (some a) (pair.forward.promoteGradients.op.enter q) = p.1.headD 0 := by
      refine (hpq.enter_values (LoopOp.not_isGradient_of_isSource hsrc)).trans ?_
      change assign p.2.values pair.forward.args p.1 a = _
      have hlen := hpq.length
      have hnodup := hwf.forward.args_nodup
      rw [hargs] at hlen hnodup ⊢
      exact assign_head 0 hnodup hlen
    have hrow := hindexed.row k hk p hp
    rw [inductionVariable_eq hindexed hargs, hval]
    exact ⟨hrow, hrow ▸ rowIndex_lt hindexed.rows_pos _⟩
  obtain ⟨u, pushed, hexecB, hagreeB, hhanded⟩ := LoopOp.lowerCaches_exec
    (LoopOp.promoteGradients_wellFormed hwf.forward hplain) (promoted_over hwf)
    (pops_promote hwf.forward_pops _ _)
    ((pushes_fst_promote pair.forward.body id pair.forward.gradientStart).symm ▸ hwf.pushes_once)
    hcaches (fun e he => LoopOp.outside_of_mem_hoisted he) (inductionVariable_fresh hwf)
    (fun hinside => (hindexed hinside).numIters) hindex hexec
  have hcontents : ∀ e ∈ pair.forward.inside ++ pair.forward.hoisted, ∀ c ∈ e.1.members,
      s₁.caches c = pushed e ++ s.caches c := by
    intro e he c hc
    rw [← hcachesA, ← hcaches₀]
    exact hhanded.contents e he c hc
  have hothers : ∀ c, (∀ e ∈ pair.forward.inside ++ pair.forward.hoisted, c ∉ e.1.members) →
      s₁.caches c = s.caches c := by
    intro c hc
    rw [← hcachesA, ← hcaches₀]
    exact hhanded.others c hc
  by_cases hearly : pair.forward.updatedGradients = [] ∧ pair.forward.pushedCaches = []
  · -- With nothing to do the loop stays as it is.
    have hnone : ∀ e, e ∉ pair.forward.inside ++ pair.forward.hoisted := by
      intro e he
      obtain ⟨p, hp, -⟩ := (LoopOp.mem_entries hwf.forward.ssa hwf.pushes_once).mp he
      rw [hearly.2] at hp
      exact not_mem_nil hp
    refine ⟨⟨[], pair.forward, []⟩, s₁, pushed, if_pos hearly, ?_, ⟨fun _ _ => rfl, rfl,
      fun _ _ => rfl⟩, ⟨hhanded.pushed_length, hcontents, hothers, fun e he => ?_, fun e he => ?_,
      fun c _ => ?_⟩⟩
    · rw [RewrittenLoop.exec, runBlock, bind_some, h]
      rfl
    · exact absurd (mem_append_left _ he) (hnone e)
    · exact absurd (mem_append_right _ he) (hnone e)
    · exact hothers c fun e he => absurd he (hnone e)
  · have hfound : ¬(pair.forward.inside ≠ [] ∧ pair.forward.inductionVariable pair.info = none) := by
      intro hfail
      obtain ⟨a, rest, hargs⟩ := exists_cons_of_ne_nil hwf.args_ne_nil
      rw [inductionVariable_eq (hindexed hfail.1) hargs] at hfail
      exact some_ne_none _ hfail.2
    have hafter := runBlock_sets pair.forward.updatedGradients u
    refine ⟨_, _, pushed, (if_neg hearly).trans (if_neg hfound),
      RewrittenLoop.around_exec hbefore hexecB hafter, ⟨fun x hx => ?_, funext fun g => ?_,
        fun c hc => ?_⟩, ⟨hhanded.pushed_length, hcontents, hothers, fun e he => ?_,
        fun e he => ?_, fun c hc => ?_⟩⟩
    · exact (hagreeB.values x (LoopOp.not_isCache_of_isSource hx)).trans
        (hvaluesA x (LoopOp.not_isGradient_of_isSource hx))
    · refine Eq.trans ?_ (hgradientsA g)
      by_cases hg : g ∈ pair.forward.updatedGradients
      · simp only [if_pos hg]
        refine hagreeB.values _ ?_
        rintro ⟨⟩
      · simp only [if_neg hg]
        exact congrFun hagreeB.gradients g
    · have hnot : ∀ e ∈ pair.forward.inside ++ pair.forward.hoisted, c ∉ e.1.members :=
        fun e he hmem => hc
          ((LoopOp.mem_members hwf.forward.ssa hwf.pushes_once).mp ⟨e, he, hmem⟩)
      refine (hhanded.lowered c fun hin => ?_).trans
        ((congrFun hcaches₀ c).trans (hothers c hnot).symm)
      obtain ⟨e, he, rfl⟩ := mem_map.mp hin
      exact hnot e he (hcaches.cache_mem e he)
    · rw [← hcaches₀]
      exact hhanded.held e he
    · rw [← hcaches₀]
      exact hhanded.heldOutside e he
    · rw [← hcaches₀]
      exact hhanded.lowered c hc

end LoopPair

end EnzymeJax
