import EnzymeJax.Enzyme.IfOp

/-!
# What a lowered if computes

The rewritten if computes the results and gradients of the if and pushes each value where its branch
defines it, a dummy elsewhere. The pops before the reverse if hand over what was pushed.
-/

namespace EnzymeJax

open List Option Function

variable {α : Type*}

def State.valueBefore (s : State α) : Value → α
  | .outerGet g => s.gradients g
  | v => s.values v

namespace IfOp

/-- The block is in SSA form over the values of the program. -/
structure WellFormed (op : IfOp α) : Prop where
  ssa : ∀ b, Ssa (op.branch b).ops
  definedIn_source : ∀ b, ∀ x ∈ definedIn (op.branch b).ops, x.IsSource
  uses_source : ∀ b, ∀ x ∈ (op.branch b).uses, x.IsSource
  results_source : ∀ x ∈ op.results, x.IsSource
  pred_source : op.pred.IsSource
  returns_length : ∀ b, (op.branch b).returns.length = op.results.length

variable [Zero α] {isTrue : α → Bool} {removalBlockExplore : RemovalBlockExplore α} {op : IfOp α}

/-- The behaviour of `removalBlockExplore` on the branches. -/
def ExploresBranches (removalBlockExplore : RemovalBlockExplore α) (op : IfOp α) : Prop :=
  Explores op.trueBranch [] [] (op.explored removalBlockExplore true) ∧
    Explores op.falseBranch (op.explored removalBlockExplore true).gradients
      (op.explored removalBlockExplore true).pushedCaches (op.explored removalBlockExplore false)

omit [Zero α] in
theorem cache_mem_members (hexplores : op.ExploresBranches removalBlockExplore) :
    ∀ p ∈ op.pushedCaches removalBlockExplore, p.2.cache ∈ p.2.members :=
  hexplores.2.cache_mem (hexplores.1.cache_mem nofun)

omit [Zero α] in
theorem mem_members_iff (hexplores : op.ExploresBranches removalBlockExplore) (c : Nat) (v : Value) :
    (∃ info, (v, info) ∈ op.pushedCaches removalBlockExplore ∧ c ∈ info.members) ↔
      ∃ b, (c, v) ∈ pushes (op.explored removalBlockExplore b).branch.ops := by
  rw [pushedCaches, hexplores.2.mem_members, hexplores.1.mem_members, Bool.exists_bool]
  simp only [not_mem_nil, false_and, exists_false, false_or]
  exact or_comm

variable {b : Bool} {s' t : State α} {ps : List (Value × CacheInfo)}

omit [Zero α] in
theorem mem_gradients_of_set (hexplores : op.ExploresBranches removalBlockExplore) {g : Nat} {v : Value}
    (hset : .set g v ∈ (op.branch b).ops) : g ∈ op.gradients removalBlockExplore := by
  rw [gradients, hexplores.2.mem_gradients]
  cases b with
  | true => exact .inl ((hexplores.1.mem_gradients g).mpr (.inr ⟨v, hset⟩))
  | false => exact .inr ⟨v, hset⟩

/-- Every cache is pushed to once. -/
def PushesOnce (op : IfOp α) : Prop :=
  ((pushes op.trueBranch.ops ++ pushes op.falseBranch.ops).map Prod.fst).Nodup

omit [Zero α] in
theorem pushed_unique (hexplores : op.ExploresBranches removalBlockExplore) (honce : op.PushesOnce)
    {b' : Bool} {c : Nat} {v v' : Value} (h : (c, v) ∈ pushes (op.explored removalBlockExplore b).branch.ops)
    (h' : (c, v') ∈ pushes (op.explored removalBlockExplore b').branch.ops) : b = b' ∧ v = v' := by
  rw [PushesOnce, map_append, ← hexplores.1.pushes_fst, ← hexplores.2.pushes_fst, nodup_append'] at honce
  obtain ⟨htrue, hfalse, hdisjoint⟩ := honce
  cases b with
  | true =>
    cases b' with
    | true => exact ⟨rfl, congrArg Prod.snd (inj_on_of_nodup_map htrue h h' rfl)⟩
    | false => exact absurd (fst_mem h') (hdisjoint (fst_mem h))
  | false =>
    cases b' with
    | true => exact absurd (fst_mem h) (hdisjoint (fst_mem h'))
    | false => exact ⟨rfl, congrArg Prod.snd (inj_on_of_nodup_map hfalse h h' rfl)⟩

omit [Zero α] in
theorem keys_nodup (hexplores : op.ExploresBranches removalBlockExplore) :
    ((op.pushedCaches removalBlockExplore).map Prod.fst).Nodup :=
  hexplores.2.keys_nodup (hexplores.1.keys_nodup nodup_nil)

omit [Zero α] in
theorem entry_unique (hexplores : op.ExploresBranches removalBlockExplore) (honce : op.PushesOnce)
    {p q : Value × CacheInfo} (hp : p ∈ op.pushedCaches removalBlockExplore)
    (hq : q ∈ op.pushedCaches removalBlockExplore) {c : Nat} (hcp : c ∈ p.2.members)
    (hcq : c ∈ q.2.members) : p = q := by
  obtain ⟨b, hb⟩ := (mem_members_iff hexplores c p.1).mp ⟨p.2, hp, hcp⟩
  obtain ⟨b', hb'⟩ := (mem_members_iff hexplores c q.1).mp ⟨q.2, hq, hcq⟩
  have hval := (pushed_unique hexplores honce hb hb').2
  exact inj_on_of_nodup_map (keys_nodup hexplores) hp hq hval

omit [Zero α] in
theorem caches_nodup (hexplores : op.ExploresBranches removalBlockExplore) (honce : op.PushesOnce) :
    ((op.pushedCaches removalBlockExplore).map fun p => p.2.cache).Nodup := by
  refine (Nodup.of_map _ (keys_nodup hexplores)).map_on fun p hp q hq heq => ?_
  have hcp := cache_mem_members hexplores p hp
  exact entry_unique hexplores honce hp hq hcp (heq ▸ cache_mem_members hexplores q hq)

omit [Zero α] in
theorem members_pairwise (hexplores : op.ExploresBranches removalBlockExplore)
    (honce : op.PushesOnce) : (op.pushedCaches removalBlockExplore).Pairwise
      fun p p' => ∀ c ∈ p.2.members, c ∉ p'.2.members := by
  refine (Nodup.of_map _ (keys_nodup hexplores)).pairwise_of_forall_ne ?_
  intro p hp q hq hne c hcp hcq
  exact hne (entry_unique hexplores honce hp hq hcp hcq)

variable (removalBlockExplore) in
theorem before_run (op : IfOp α) (t : State α) :
    ∃ t₀, runBlock (op.removeEnzymeOps removalBlockExplore).before t = some t₀ ∧
      t₀.gradients = t.gradients ∧ t₀.caches = t.caches ∧
      (∀ g ∈ op.outerGets removalBlockExplore, t₀.values (.outerGet g) = t.gradients g) ∧
      (∀ p ∈ op.pushedCaches removalBlockExplore, t₀.values (.dummy p.2.cache) = 0) ∧
      ∀ x, x.IsSource → t₀.values x = t.values x := by
  obtain ⟨t₁, hrun₁, hgradients₁, hcaches₁, hread, hvalues₁⟩ :=
    runBlock_gets (op.outerGets removalBlockExplore) t
  obtain ⟨t₀, hrun₀, hgradients₀, hcaches₀, hzero, hvalues₀⟩ :=
    runBlock_dummies 0 ((op.pushedCaches removalBlockExplore).map fun p => p.2.cache) t₁
  refine ⟨t₀, ?_, hgradients₀.trans hgradients₁, hcaches₀.trans hcaches₁, fun g hg => ?_,
    fun p hp => hzero _ (mem_map_of_mem hp), fun x hx => ?_⟩
  · rw [List.map_map] at hrun₀
    rw [removeEnzymeOps, runBlock_append, hrun₁, bind_some]
    exact hrun₀
  · rw [hvalues₀ (.outerGet g) nofun, hread g hg]
  · obtain ⟨n, rfl⟩ := Value.eq_source_of_isSource hx
    rw [hvalues₀ (.source n) nofun, hvalues₁ (.source n) nofun]

theorem after_run (hexplores : op.ExploresBranches removalBlockExplore) (honce : op.PushesOnce) (t : State α) :
    ∃ t', runBlock (op.removeEnzymeOps removalBlockExplore).after t = some t' ∧ t'.values = t.values ∧
      (∀ g, t'.gradients g =
        if g ∈ op.gradients removalBlockExplore then t.values (.gradient g) else t.gradients g) ∧
      ∀ c, t'.caches c =
        if c ∈ (op.pushedCaches removalBlockExplore).map (fun p => p.2.cache) then
          t.values (.cache c) :: t.caches c
        else t.caches c := by
  have hpushes := runBlock_pushes (fun p : Value × CacheInfo => p.2.cache)
    (fun p => .cache p.2.cache) (caches_nodup hexplores honce)
    { t with gradients := fun g =>
        if g ∈ op.gradients removalBlockExplore then t.values (.gradient g) else t.gradients g }
  obtain ⟨caches, hpushes, hmem, hnotMem⟩ := hpushes
  have hrun := calc
    runBlock (op.removeEnzymeOps removalBlockExplore).after t =
        (runBlock ((op.gradients removalBlockExplore).map fun g => .set g (.gradient g)) t).bind
          (runBlock ((op.pushedCaches removalBlockExplore).map fun p =>
            .push p.2.cache (.cache p.2.cache))) := runBlock_append ..
    _ = _ := by rw [runBlock_sets, bind_some]
    _ = _ := hpushes
  refine ⟨_, hrun, rfl, fun g => rfl, fun c => ?_⟩
  by_cases hc : c ∈ (op.pushedCaches removalBlockExplore).map fun p => p.2.cache
  · rw [if_pos hc]
    obtain ⟨p, hp, rfl⟩ := mem_map.mp hc
    exact hmem p hp
  · rw [if_neg hc]
    exact hnotMem c hc

omit [Zero α] in
theorem explores (hexplores : op.ExploresBranches removalBlockExplore) (b : Bool) :
    ∃ gradients pushedCaches, Explores (op.branch b) gradients pushedCaches (op.explored removalBlockExplore b) := by
  cases b with
  | true => exact ⟨_, _, hexplores.1⟩
  | false => exact ⟨_, _, hexplores.2⟩

theorem newBranch_run (hexplores : op.ExploresBranches removalBlockExplore) {s : State α}
    (hrun : runBlock (op.branch b).ops s = some s') (huses : ∀ x ∈ (op.branch b).uses, t.values x = s.values x)
    (hsrc : ∀ x ∈ (op.branch b).uses, x.IsSource) (hgradients : t.gradients = s.gradients) :
    ∃ t₀ t', runBlock (op.removeEnzymeOps removalBlockExplore).before t = some t₀ ∧
      runBlock (op.newBranch removalBlockExplore b).ops t₀ = some t' ∧
      t₀.gradients = t.gradients ∧ t₀.caches = t.caches ∧
      (∀ x, x.IsSource → t₀.values x = t.values x) ∧
      t'.gradients = t.gradients ∧ t'.caches = t.caches ∧
      (op.explored removalBlockExplore b).branch.returns.map t'.values = (op.branch b).returns.map s'.values ∧
      (∀ g ∈ op.gradients removalBlockExplore, t'.values
        (((op.explored removalBlockExplore b).mapping g).getD (.outerGet g)) = s'.gradients g) ∧
      (∀ p ∈ op.pushedCaches removalBlockExplore, t'.values (.dummy p.2.cache) = 0) ∧
      ∀ c u, (c, u) ∈ pushes (op.branch b).ops →
        ∃ v, (c, v) ∈ pushes (op.explored removalBlockExplore b).branch.ops ∧ t'.values v = s'.values u ∧
          (v ∉ definedIn (op.explored removalBlockExplore b).branch.ops → s'.values u = t.valueBefore v) := by
  obtain ⟨gradients, pushedCaches, hspec⟩ := explores hexplores b
  obtain ⟨t₀, hbefore, hgradients₀, hcaches₀, hread, hzero, hvals⟩ :=
    before_run removalBlockExplore op t
  have houter : ∀ g ∈ (op.explored removalBlockExplore b).outerGets, t₀.values (.outerGet g) = t.gradients g := by
    intro g hg
    refine hread g ?_
    rw [outerGets, mem_append, mem_append]
    cases b with
    | true => exact .inl (.inl hg)
    | false => exact .inl (.inr hg)
  obtain ⟨t', hrun', hgradients', hcaches', hreturns, hmapped, hunmapped, hpushed⟩ :=
    hspec.run s s' t₀ hrun (fun x hx => (hvals x (hsrc x hx)).trans (huses x hx))
      (hgradients₀.trans hgradients) (fun g hg => (houter g hg).trans (congrFun hgradients g))
  have hkept : ∀ x, x ∉ definedIn (op.explored removalBlockExplore b).branch.ops → t'.values x = t₀.values x := by
    intro x hx
    refine runBlock_values hrun' fun hin => hx ?_
    obtain ⟨op', hop', hres⟩ := mem_flatMap.mp hin
    exact mem_flatMap.mpr ⟨op', (mem_filter.mp hop').1, hres⟩
  have hnew : ∀ x, x.IsSource = false → t'.values x = t₀.values x := by
    intro x hx
    refine hkept x fun hin => ?_
    rw [hspec.definedIn_source x hin] at hx
    cases hx
  refine ⟨t₀, t', hbefore, hrun', hgradients₀, hcaches₀, hvals, hgradients'.trans hgradients₀,
    hcaches'.trans hcaches₀, hreturns, fun g hg => ?_, fun p hp => ?_, fun c u hu => ?_⟩
  · cases hmapping : (op.explored removalBlockExplore b).mapping g with
    | some v => exact hmapped g v hmapping
    | none =>
      have hmem : g ∈ op.outerGets removalBlockExplore := by
        rw [outerGets, mem_append, mem_filter]
        refine .inr ⟨hg, ?_⟩
        cases b with
        | true => rw [hmapping]; rfl
        | false => rw [hmapping]; exact Bool.or_true _
      rw [getD_none, hnew _ rfl, hread g hmem, hunmapped g hmapping, hgradients]
  · rw [hnew _ rfl, hzero p hp]
  · obtain ⟨v, hv, hval⟩ := hpushed c u hu
    refine ⟨v, hv, hval, fun hout => ?_⟩
    rw [← hval, hkept v hout]
    rcases hspec.pushes_snd c v hv with hv' | ⟨g, hg, rfl⟩
    · rw [hvals v hv']
      obtain ⟨n, rfl⟩ := Value.eq_source_of_isSource hv'
      rfl
    · exact houter g hg

variable (removalBlockExplore) in
/-- The content of the result for a pushed value, at the end of a branch. -/
def pushedContent (op : IfOp α) (b : Bool) (s : State α) (p : Value × CacheInfo) : α :=
  if p.1 ∈ definedIn (op.explored removalBlockExplore b).branch.ops then s.values p.1 else 0

omit [Zero α] in
theorem assign_results (gs : List Nat) (hps : (ps.map fun p => p.2.cache).Nodup) (values : Value → α) {rs : List α}
    (hlen : op.results.length = rs.length) (gradientContent : Nat → α) (cacheContent : Value × CacheInfo → α) :
    (∀ x, x.IsSource → assign values (op.results ++ gs.map .gradient ++ ps.map fun p => .cache p.2.cache)
        (rs ++ gs.map gradientContent ++ ps.map cacheContent) x = assign values op.results rs x) ∧
      (∀ g ∈ gs, assign values (op.results ++ gs.map .gradient ++ ps.map fun p => .cache p.2.cache)
        (rs ++ gs.map gradientContent ++ ps.map cacheContent) (.gradient g) = gradientContent g) ∧
      ∀ p ∈ ps, assign values (op.results ++ gs.map .gradient ++ ps.map fun p => .cache p.2.cache)
        (rs ++ gs.map gradientContent ++ ps.map cacheContent) (.cache p.2.cache) = cacheContent p := by
  have hlen' : (op.results ++ gs.map Value.gradient).length = (rs ++ gs.map gradientContent).length := by simp [hlen]
  rw [assign_append hlen', assign_append hlen]
  have hcaches : ∀ x, (∀ c, x ≠ .cache c) → x ∉ ps.map fun p => Value.cache p.2.cache := by
    intro x hx hin
    obtain ⟨p, -, rfl⟩ := mem_map.mp hin
    exact hx _ rfl
  refine ⟨fun x hx => ?_, fun g hg => ?_, fun p hp => ?_⟩
  · obtain ⟨n, rfl⟩ := Value.eq_source_of_isSource hx
    rw [assign_of_notMem (hcaches (.source n) nofun), assign_of_notMem]
    intro hin
    obtain ⟨g, -, heq⟩ := mem_map.mp hin
    cases heq
  · rw [assign_of_notMem (hcaches (.gradient g) nofun)]
    exact assign_map .gradient gradientContent hg (fun g' _ heq => Value.gradient.inj heq) _
  · refine assign_map (fun p : Value × CacheInfo => .cache p.2.cache) cacheContent hp
      (fun q hq heq => ?_) _
    exact inj_on_of_nodup_map hps hq hp (Value.cache.inj heq)

theorem newBranch_eq (op : IfOp α) (b : Bool) :
    (op.removeEnzymeOps removalBlockExplore).op.branch b = op.newBranch removalBlockExplore b := by
  cases b with
  | true | false => rfl

/-- The rewritten if computes the results and the gradients of the if, and leaves the caches to the
pushes after it. -/
theorem removeEnzymeOps_exec (hwf : op.WellFormed) (hexplores : op.ExploresBranches removalBlockExplore)
    (honce : op.PushesOnce) {s : State α} (hb : isTrue (t.values op.pred) = b)
    (hrun : runBlock (op.branch b).ops s = some s')
    (huses : ∀ x ∈ (op.branch b).uses, t.values x = s.values x) (hgradients : t.gradients = s.gradients) :
    ∃ t' tb, (op.removeEnzymeOps removalBlockExplore).exec isTrue t = some t' ∧ t'.gradients = s'.gradients ∧
      (∀ x, x.IsSource → t'.values x = assign t.values op.results ((op.branch b).returns.map s'.values) x) ∧
      (∀ c, c ∉ (op.pushedCaches removalBlockExplore).map (fun p => p.2.cache) → t'.caches c = t.caches c) ∧
      (∀ p ∈ op.pushedCaches removalBlockExplore, t'.caches p.2.cache =
        op.pushedContent removalBlockExplore b tb p :: t.caches p.2.cache) ∧
      ∀ c u, (c, u) ∈ pushes (op.branch b).ops →
        ∃ v, (c, v) ∈ pushes (op.explored removalBlockExplore b).branch.ops ∧ tb.values v = s'.values u ∧
          (v ∉ definedIn (op.explored removalBlockExplore b).branch.ops → s'.values u = t.valueBefore v) := by
  obtain ⟨t₀, tb, hbefore, hbody, hgradients₀, hcaches₀, hvalues₀, hgradientsb, hcachesb, hreturns,
    hgradientValues, hdummies, hpushed⟩ :=
    newBranch_run hexplores hrun huses (hwf.uses_source b) hgradients
  have hcontents : (op.newBranch removalBlockExplore b).returns.map tb.values =
      (op.branch b).returns.map s'.values ++ (op.gradients removalBlockExplore).map s'.gradients ++
          (op.pushedCaches removalBlockExplore).map
            (op.pushedContent removalBlockExplore b tb) := by
    rw [newBranch, map_append, map_append, hreturns, List.map_map, List.map_map]
    congr 1
    · exact congrArg _ (map_congr_left hgradientValues)
    · refine map_congr_left fun p hp => ?_
      simp only [comp_apply, pushedContent]
      split
      · rfl
      · exact hdummies p hp
  have hlen : op.results.length = ((op.branch b).returns.map s'.values).length := by
    rw [length_map, hwf.returns_length]
  obtain ⟨hsrc, hgradient, hcache⟩ := assign_results
    (op.gradients removalBlockExplore) (caches_nodup hexplores honce) t₀.values hlen
    s'.gradients (op.pushedContent removalBlockExplore b tb)
  have hif : (op.removeEnzymeOps removalBlockExplore).op.exec isTrue t₀ =
      some (tb.withValues (assign t₀.values (op.removeEnzymeOps removalBlockExplore).op.results
        ((op.newBranch removalBlockExplore b).returns.map tb.values))) := by
    have hpred : isTrue (t₀.values (op.removeEnzymeOps removalBlockExplore).op.pred) = b :=
      (congrArg isTrue (hvalues₀ _ hwf.pred_source)).trans hb
    simp only [exec, hpred, newBranch_eq, hbody, map_some]
  obtain ⟨t', hafter, hvalues', hgradients', hcaches'⟩ := after_run hexplores honce
    (tb.withValues (assign t₀.values (op.removeEnzymeOps removalBlockExplore).op.results
      ((op.newBranch removalBlockExplore b).returns.map tb.values)))
  rw [hcontents] at hif hafter hvalues' hgradients' hcaches'
  refine ⟨t', tb, ?_, ?_, fun x hx => ?_, fun c hc => ?_, fun p hp => ?_, hpushed⟩
  · rw [Rewritten.exec, hbefore, bind_some, hif, bind_some, hafter]
  · funext g
    rw [hgradients']
    by_cases hg : g ∈ op.gradients removalBlockExplore
    · rw [if_pos hg]
      exact hgradient g hg
    · rw [if_neg hg, runBlock_gradients hrun fun v hv => hg (mem_gradients_of_set hexplores hv),
        ← hgradients, ← hgradientsb]
      rfl
  · rw [hvalues']
    refine (hsrc x hx).trans ?_
    by_cases hmem : x ∈ op.results
    · exact assign_congr hlen hmem _ _
    · rw [assign_of_notMem hmem, assign_of_notMem hmem, hvalues₀ x hx]
  · rw [hcaches', if_neg hc, ← hcachesb]
    rfl
  · rw [hcaches', if_pos (mem_map_of_mem hp), ← hcachesb]
    exact congrArg (· :: _) (hcache p hp)

theorem removeEnzymeOps_values {t' : State α}
    (hexec : (op.removeEnzymeOps removalBlockExplore).exec isTrue t = some t') {x : Value} (hx : x.IsSource)
    (hresults : x ∉ op.results) : t'.values x = t.values x := by
  obtain ⟨t₀, hbefore, hrest⟩ := bind_eq_some_iff.mp hexec
  obtain ⟨t₁, hif, hafter⟩ := bind_eq_some_iff.mp hrest
  obtain ⟨t₀', hbefore', -, -, -, -, hvals⟩ := before_run removalBlockExplore op t
  cases hbefore.symm.trans hbefore'
  obtain ⟨tb, -, rfl⟩ := map_eq_some_iff.mp hif
  rw [← hvals x hx, runBlock_values hafter]
  · refine assign_of_notMem ?_ _ _
    intro hin
    rcases mem_append.mp hin with hin | hin
    · rcases mem_append.mp hin with hin | hin
      · exact hresults hin
      · obtain ⟨g, -, rfl⟩ := mem_map.mp hin
        cases hx
    · obtain ⟨p, -, rfl⟩ := mem_map.mp hin
      cases hx
  · intro hin
    obtain ⟨op', hop', hres⟩ := mem_flatMap.mp hin
    rcases mem_append.mp hop' with hop' | hop'
    · obtain ⟨g, -, rfl⟩ := mem_map.mp hop'
      cases hres
    · obtain ⟨p, -, rfl⟩ := mem_map.mp hop'
      cases hres

/-! ### The hoisted pops -/

def pops (op : IfOp α) : List (Nat × Value) :=
  EnzymeJax.pops op.trueBranch.ops ++ EnzymeJax.pops op.falseBranch.ops

theorem runBlock_copies (k : Nat) {qs : List (Nat × Value)} (hqs : ∀ q ∈ qs, q.2.IsSource) (t : State α) :
    ∃ t', runBlock (qs.map fun q => .pure q.2 [.cache k] fun l => l.headD 0) t = some t' ∧
      t'.gradients = t.gradients ∧ t'.caches = t.caches ∧
      (∀ q ∈ qs, t'.values q.2 = t.values (.cache k)) ∧
      ∀ x, x ∉ qs.map Prod.snd → t'.values x = t.values x := by
  induction qs generalizing t with
  | nil => exact ⟨t, rfl, rfl, rfl, nofun, fun _ _ => rfl⟩
  | cons q qs ih =>
    obtain ⟨hq, hqs⟩ := forall_mem_cons.mp hqs
    obtain ⟨t', hrun, hgradients, hcaches, hcopies, hvals⟩ :=
      ih hqs (t.withValues (update t.values q.2 (t.values (.cache k))))
    have hcache : update t.values q.2 (t.values (.cache k)) (.cache k) = t.values (.cache k) := by
      refine update_of_ne (fun heq => ?_) _ _
      rw [← heq] at hq
      cases hq
    refine ⟨t', hrun, hgradients, hcaches, fun q' hq' => ?_, fun x hx => ?_⟩
    · by_cases hmem : q'.2 ∈ qs.map Prod.snd
      · obtain ⟨q'', hq'', heq⟩ := mem_map.mp hmem
        rw [← heq, hcopies q'' hq'']
        exact hcache
      · have hhead : q' = q := (mem_cons.mp hq').resolve_right
          fun h => hmem (mem_map_of_mem h)
        rw [hvals _ hmem, hhead]
        exact update_self _ _ _
    · obtain ⟨hne, hrest⟩ := not_or.mp (mt mem_cons.mpr hx)
      rw [hvals x hrest]
      exact update_of_ne hne _ _

theorem hoistPop_run (hsrc : ∀ q ∈ op.pops, q.2.IsSource) {info : CacheInfo} {a : α} {rest : List α}
    (hcache : t.caches info.cache = a :: rest) :
    ∃ t', runBlock (op.hoistPop info) t = some t' ∧ t'.gradients = t.gradients ∧
      t'.caches = update t.caches info.cache rest ∧
      (∀ q ∈ op.pops, q.1 ∈ info.members → t'.values q.2 = a) ∧
      ∀ x, x.IsSource → (∀ q ∈ op.pops, q.1 ∈ info.members → x ≠ q.2) → t'.values x = t.values x := by
  have hqs : ∀ q ∈ op.pops.filter fun q => q.1 ∈ info.members, q.2.IsSource :=
    fun q hq => hsrc q (mem_filter.mp hq).1
  obtain ⟨t', hrun, hgradients, hcaches, hcopies, hvals⟩ := runBlock_copies info.cache hqs
    { t with
      values := update t.values (.cache info.cache) a
      caches := update t.caches info.cache rest }
  refine ⟨t', ?_, hgradients, hcaches, fun q hq hmem => ?_, fun x hx hne => ?_⟩
  · rw [hoistPop, runBlock, BlockOp.exec, hcache, bind_some]
    exact hrun
  · rw [hcopies q (mem_filter.mpr ⟨hq, decide_eq_true hmem⟩)]
    exact update_self _ _ _
  · rw [hvals x]
    · refine update_of_ne (fun heq => ?_) _ _
      rw [heq] at hx
      cases hx
    · intro hin
      obtain ⟨q, hq, heq⟩ := mem_map.mp hin
      obtain ⟨hq, hmem⟩ := mem_filter.mp hq
      exact hne q hq (of_decide_eq_true hmem) heq.symm

theorem hoistPops_run (hsrc : ∀ q ∈ op.pops, q.2.IsSource) (hnodup : (op.pops.map Prod.snd).Nodup)
    (hcaches : (ps.map fun p => p.2.cache).Nodup)
    (hmembers : ps.Pairwise fun p p' => ∀ c ∈ p.2.members, c ∉ p'.2.members) {content : Value × CacheInfo → α}
    {rest : Nat → List α} (hfull : ∀ p ∈ ps, t.caches p.2.cache = content p :: rest p.2.cache) :
    ∃ t', runBlock (ps.flatMap fun p => op.hoistPop p.2) t = some t' ∧ t'.gradients = t.gradients ∧
      (∀ p ∈ ps, t'.caches p.2.cache = rest p.2.cache) ∧
      (∀ c, c ∉ ps.map (fun p => p.2.cache) → t'.caches c = t.caches c) ∧
      (∀ p ∈ ps, ∀ q ∈ op.pops, q.1 ∈ p.2.members → t'.values q.2 = content p) ∧
      ∀ x, x.IsSource → (∀ p ∈ ps, ∀ q ∈ op.pops, q.1 ∈ p.2.members → x ≠ q.2) → t'.values x = t.values x := by
  induction ps generalizing t with
  | nil => exact ⟨t, rfl, rfl, nofun, fun _ _ => rfl, nofun, fun _ _ _ => rfl⟩
  | cons p ps ih =>
    obtain ⟨hp, hps⟩ := forall_mem_cons.mp hfull
    obtain ⟨hcache, hcaches'⟩ := nodup_cons.mp hcaches
    obtain ⟨hdisjoint, hmembers'⟩ := pairwise_cons.mp hmembers
    obtain ⟨t₁, hrun₁, hgradients₁, hcaches₁, hread₁, hvalues₁⟩ := hoistPop_run hsrc hp
    have hfull₁ : ∀ p' ∈ ps, t₁.caches p'.2.cache = content p' :: rest p'.2.cache := by
      intro p' hp'
      have hne : p'.2.cache ≠ p.2.cache := by
        intro heq
        exact hcache (mem_map.mpr ⟨p', hp', heq⟩)
      rw [hcaches₁, update_of_ne hne, hps p' hp']
    obtain ⟨t', hrun, hgradients, hrest, hothers, hread, hvals⟩ := ih hcaches' hmembers' hfull₁
    refine ⟨t', ?_, hgradients.trans hgradients₁, ?_, fun c hc => ?_, ?_, fun x hx hne => ?_⟩
    · rw [flatMap_cons, runBlock_append, hrun₁, bind_some, hrun]
    · refine forall_mem_cons.mpr ⟨?_, hrest⟩
      rw [hothers _ hcache, hcaches₁, update_self]
    · obtain ⟨hne, hc⟩ := not_or.mp (mt mem_cons.mpr hc)
      rw [hothers c hc, hcaches₁, update_of_ne hne]
    · refine forall_mem_cons.mpr ⟨fun q hq hmem => ?_, hread⟩
      rw [hvals q.2 (hsrc q hq), hread₁ q hq hmem]
      intro p' hp' q' hq' hmem' heq
      obtain rfl := inj_on_of_nodup_map hnodup hq hq' heq
      exact hdisjoint p' hp' _ hmem hmem'
    · obtain ⟨hne₁, hne⟩ := forall_mem_cons.mp hne
      rw [hvals x hx hne, hvalues₁ x hx hne₁]

end IfOp

end EnzymeJax
