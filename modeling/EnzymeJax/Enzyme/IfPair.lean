import EnzymeJax.Enzyme.Explore
import EnzymeJax.Enzyme.LoweredIf

/-!
# What a lowered if pair computes

Every gradient cell, result and cache is as before, for any code between the two ifs that leaves the caches alone.
A popped value that is used is the value pushed just where the value is defined in the branch that pushes it,
or is the null value already.
-/

namespace EnzymeJax

open List Option

variable {α : Type*}

variable {op : IfOp α}

theorem exploresBranches_explore (hwf : op.WellFormed) (hpops : ∀ b, pops (op.branch b).ops = []) :
    op.ExploresBranches explore :=
  ⟨explores_explore (hwf.ssa true) (hpops true) (hwf.definedIn_source true) (hwf.uses_source true)
      _ _,
    explores_explore (hwf.ssa false) (hpops false) (hwf.definedIn_source false)
      (hwf.uses_source false) _ _⟩

namespace IfPair

def caches (pair : IfPair α) : List Nat :=
  (pushes pair.forward.trueBranch.ops ++ pushes pair.forward.falseBranch.ops).map Prod.fst

/-- The forward if pushes and the reverse if pops each cache once, in the same branch. -/
structure WellFormed (pair : IfPair α) : Prop where
  forward : pair.forward.WellFormed
  reverse : pair.reverse.WellFormed
  forward_pops : ∀ b, pops (pair.forward.branch b).ops = []
  reverse_pushes : ∀ b, pushes (pair.reverse.branch b).ops = []
  pushesOnce : pair.forward.PushesOnce
  pops_fst : (pair.reverse.pops.map Prod.fst).Nodup
  pops_snd : (pair.reverse.pops.map Prod.snd).Nodup
  matching : ∀ b c, (∃ u, (c, u) ∈ pushes (pair.forward.branch b).ops) ↔ ∃ x, (c, x) ∈ pops (pair.reverse.branch b).ops
  popped_local : ∀ b c x, (c, x) ∈ pops (pair.reverse.branch b).ops →
    x ∉ (pair.reverse.branch !b).uses ∧ x ∉ pair.reverse.results ∧ x ≠ pair.reverse.pred

/-- A run of the pair, and of the code in between, with the predicate the same for both ifs. -/
structure Runs (isTrue : α → Bool) (middle : State α → Option (State α)) (pair : IfPair α)
    (s s₁ s₂ s₃ : State α) : Prop where
  forward : pair.forward.exec isTrue s = some s₁
  middle : middle s₁ = some s₂
  pred : isTrue (s₂.values pair.reverse.pred) = isTrue (s.values pair.forward.pred)
  reverse : pair.reverse.exec isTrue s₂ = some s₃

variable [Zero α]

/-- The lowered pair does the same: the results and gradients after each if, the caches at the end,
and every popped value that is used. -/
def Exact (removalBlockExplore : RemovalBlockExplore α) (isTrue : α → Bool)
    (middle : State α → Option (State α)) (pair : IfPair α) (s s₁ s₃ : State α) : Prop :=
  ∃ t₁ t₂ t₃, (pair.lowerForward removalBlockExplore).exec isTrue s = some t₁ ∧
    middle t₁ = some t₂ ∧ (pair.lowerReverse removalBlockExplore).exec isTrue t₂ = some t₃ ∧
    State.Agree pair.caches s₁ t₁ ∧
    (∀ b sb, isTrue (s.values pair.forward.pred) = b → runBlock (pair.forward.branch b).ops s = some sb →
      ∀ c u x, (c, u) ∈ pushes (pair.forward.branch b).ops →
        (c, x) ∈ pops (pair.reverse.branch b).ops → x ∈ (pair.reverse.branch b).uses →
        t₃.values x = sb.values u) ∧
    (∀ x : Value, x.IsSource → x ∉ pair.reverse.pops.map Prod.snd → t₃.values x = s₃.values x) ∧
    t₃.gradients = s₃.gradients ∧ t₃.caches = s₃.caches

/-- Every value that the branch taken pushes, and that is used once popped, is defined in the branch
or is the null value. -/
def PushesInside (removalBlockExplore : RemovalBlockExplore α) (pair : IfPair α) (b : Bool)
    (s : State α) : Prop :=
  ∀ c v x, (c, v) ∈ pushes (pair.forward.explored removalBlockExplore b).branch.ops →
    (c, x) ∈ pops (pair.reverse.branch b).ops → x ∈ (pair.reverse.branch b).uses →
    v ∈ definedIn (pair.forward.explored removalBlockExplore b).branch.ops ∨ s.valueBefore v = 0

/-! ### The forward if -/

section

variable {removalBlockExplore : RemovalBlockExplore α} {isTrue : α → Bool} {pair : IfPair α}

omit [Zero α] in
theorem mem_caches_of_pushes {b : Bool} {c : Nat} {u : Value}
    (h : (c, u) ∈ pushes (pair.forward.branch b).ops) : c ∈ pair.caches := by
  rw [caches, map_append, mem_append]
  cases b with
  | true => exact .inl (fst_mem h)
  | false => exact .inr (fst_mem h)

omit [Zero α] in
theorem pushes_fst (hexplores : pair.forward.ExploresBranches removalBlockExplore) (b : Bool) :
    (pushes (pair.forward.explored removalBlockExplore b).branch.ops).map Prod.fst =
      (pushes (pair.forward.branch b).ops).map Prod.fst := by
  obtain ⟨_, _, hspec⟩ := IfOp.explores hexplores b
  exact hspec.pushes_fst

omit [Zero α] in
theorem mem_caches_of_members (hexplores : pair.forward.ExploresBranches removalBlockExplore) {p : Value × CacheInfo}
    (hp : p ∈ pair.forward.pushedCaches removalBlockExplore) {c : Nat} (hc : c ∈ p.2.members) : c ∈ pair.caches := by
  obtain ⟨b, hb⟩ := (IfOp.mem_members_iff hexplores c p.1).mp ⟨p.2, hp, hc⟩
  obtain ⟨q, hq, rfl⟩ := mem_map.mp (pushes_fst hexplores b ▸ fst_mem hb)
  exact mem_caches_of_pushes hq

omit [Zero α] in
theorem pushes_nodup (hwf : pair.WellFormed) (b : Bool) :
    ((pushes (pair.forward.branch b).ops).map Prod.fst).Nodup := by
  have honce := hwf.pushesOnce
  rw [IfOp.PushesOnce, map_append] at honce
  cases b with
  | true => exact honce.of_append_left
  | false => exact honce.of_append_right

/-- The forward if and its lowering agree off the caches, and the caches of the branch taken get the values pushed. -/
theorem forward_exec (hwf : pair.WellFormed)
    (hexplores : pair.forward.ExploresBranches removalBlockExplore) {b : Bool} {s s₁ : State α}
    (hb : isTrue (s.values pair.forward.pred) = b) (h : pair.forward.exec isTrue s = some s₁) :
    ∃ sb tb t₁, runBlock (pair.forward.branch b).ops s = some sb ∧
      (pair.lowerForward removalBlockExplore).exec isTrue s = some t₁ ∧
      State.Agree pair.caches s₁ t₁ ∧
      (∀ p ∈ pair.forward.pushedCaches removalBlockExplore, t₁.caches p.2.cache =
        pair.forward.pushedContent removalBlockExplore b tb p :: s.caches p.2.cache) ∧
      (∀ c, c ∉ (pair.forward.pushedCaches removalBlockExplore).map (fun p => p.2.cache) → t₁.caches c = s.caches c) ∧
      (∀ c u, (c, u) ∈ pushes (pair.forward.branch b).ops → s₁.caches c = sb.values u :: s.caches c ∧
        ∃ v, (c, v) ∈ pushes (pair.forward.explored removalBlockExplore b).branch.ops ∧ tb.values v = sb.values u ∧
          (v ∉ definedIn (pair.forward.explored removalBlockExplore b).branch.ops → sb.values u = s.valueBefore v)) ∧
      ∀ c, c ∉ (pushes (pair.forward.branch b).ops).map Prod.fst → s₁.caches c = s.caches c := by
  rw [IfOp.exec, hb] at h
  obtain ⟨sb, hrun, rfl⟩ := map_eq_some_iff.mp h
  obtain ⟨t₁, tb, hexec, hgradients, hvals, hothers, hentries, hpushed⟩ :=
    IfOp.removeEnzymeOps_exec hwf.forward hexplores hwf.pushesOnce hb hrun (fun _ _ => rfl) rfl
  have hkept : ∀ c, c ∉ (pushes (pair.forward.branch b).ops).map Prod.fst → sb.caches c = s.caches c :=
    fun c hc => runBlock_caches_of_notMem hrun (hwf.forward_pops b) hc
  refine ⟨sb, tb, t₁, hrun, hexec, ⟨hvals, hgradients, fun c hc => ?_⟩, hentries, hothers,
    fun c u hu => ⟨?_, hpushed c u hu⟩, hkept⟩
  · have hentry : c ∉ (pair.forward.pushedCaches removalBlockExplore).map fun p => p.2.cache := by
      intro hin
      obtain ⟨p, hp, rfl⟩ := mem_map.mp hin
      exact hc (mem_caches_of_members hexplores hp (IfOp.cache_mem_members hexplores p hp))
    have hpush : c ∉ (pushes (pair.forward.branch b).ops).map Prod.fst := by
      intro hin
      obtain ⟨q, hq, rfl⟩ := mem_map.mp hin
      exact hc (mem_caches_of_pushes hq)
    exact (hothers c hentry).trans (hkept c hpush).symm
  · exact runBlock_caches_of_mem hrun (hwf.forward_pops b) (hwf.forward.ssa b)
      (pushes_nodup hwf b) hu

/-! ### The reverse if -/

omit [Zero α] in
theorem branch_erasePops (op : IfOp α) (b : Bool) :
    op.erasePops.branch b = ⟨erasePops (op.branch b).ops, (op.branch b).returns⟩ := by
  cases b with
  | true | false => rfl

omit [Zero α] in
theorem mem_definedIn_of_erasePops {ops : List (BlockOp α)} {x : Value}
    (hx : x ∈ definedIn (erasePops ops)) : x ∈ definedIn ops := by
  obtain ⟨op, hop, hres⟩ := mem_flatMap.mp hx
  exact mem_flatMap.mpr ⟨op, (mem_filter.mp hop).1, hres⟩

omit [Zero α] in
theorem mem_uses_of_erasePops {b : Bool} {x : Value} (hx : x ∈ (op.erasePops.branch b).uses) :
    x ∈ (op.branch b).uses := by
  rw [branch_erasePops] at hx
  rcases mem_append.mp hx with hx | hx
  · obtain ⟨op', hop, hoperand⟩ := mem_flatMap.mp hx
    exact mem_append_left _ (mem_flatMap.mpr ⟨op', (mem_filter.mp hop).1, hoperand⟩)
  · exact mem_append_right _ hx

omit [Zero α] in
theorem wellFormed_erasePops (hwf : op.WellFormed) : op.erasePops.WellFormed where
  ssa b := by
    rw [branch_erasePops]
    exact (hwf.ssa b).sublist filter_sublist
  definedIn_source b x hx := by
    rw [branch_erasePops] at hx
    exact hwf.definedIn_source b x (mem_definedIn_of_erasePops hx)
  uses_source b x hx := hwf.uses_source b x (mem_uses_of_erasePops hx)
  results_source := hwf.results_source
  pred_source := hwf.pred_source
  returns_length b := by
    rw [branch_erasePops]
    exact hwf.returns_length b

omit [Zero α] in
theorem pushesOnce_erasePops (hwf : pair.WellFormed) : pair.reverse.erasePops.PushesOnce := by
  have htrue : pushes pair.reverse.erasePops.trueBranch.ops = [] :=
    pushes_erasePops (hwf.reverse_pushes true)
  have hfalse : pushes pair.reverse.erasePops.falseBranch.ops = [] :=
    pushes_erasePops (hwf.reverse_pushes false)
  rw [IfOp.PushesOnce, htrue, hfalse]
  exact nodup_nil

omit [Zero α] in
theorem pushedCaches_erasePops (hwf : pair.WellFormed)
    (hexplores : pair.reverse.erasePops.ExploresBranches removalBlockExplore) :
    pair.reverse.erasePops.pushedCaches removalBlockExplore = [] := by
  refine eq_nil_iff_forall_not_mem.mpr fun p hp => ?_
  obtain ⟨b, hb⟩ := (IfOp.mem_members_iff hexplores p.2.cache p.1).mp
    ⟨p.2, hp, IfOp.cache_mem_members hexplores p hp⟩
  obtain ⟨_, _, hspec⟩ := IfOp.explores hexplores b
  have hfst := hspec.pushes_fst ▸ fst_mem hb
  rw [branch_erasePops, pushes_erasePops (hwf.reverse_pushes b)] at hfst
  exact not_mem_nil hfst

omit [Zero α] in
theorem pops_source (hwf : pair.WellFormed) : ∀ q ∈ pair.reverse.pops, q.2.IsSource := by
  intro q hq
  have hdefined : ∀ b, q ∈ pops (pair.reverse.branch b).ops → q.2.IsSource := by
    intro b hq
    refine hwf.reverse.definedIn_source b q.2 (mem_flatMap.mpr ⟨_, mem_pops.mp hq, ?_⟩)
    exact mem_cons_self
  rcases mem_append.mp hq with hq | hq
  · exact hdefined true hq
  · exact hdefined false hq

omit [Zero α] in
theorem mem_reverse_pops {b : Bool} {q : Nat × Value} (hq : q ∈ pops (pair.reverse.branch b).ops) :
    q ∈ pair.reverse.pops := by
  cases b with
  | true => exact mem_append_left _ hq
  | false => exact mem_append_right _ hq

omit [Zero α] in
theorem popped_unused (hwf : pair.WellFormed) {b : Bool} {q : Nat × Value} (hq : q ∈ pair.reverse.pops) :
    q.2 ∉ pair.reverse.results ∧ q.2 ≠ pair.reverse.pred ∧
      (q.2 ∈ (pair.reverse.branch b).uses → q ∈ pops (pair.reverse.branch b).ops) := by
  have hside : ∃ b', q ∈ pops (pair.reverse.branch b').ops := by
    rcases mem_append.mp hq with hq | hq
    · exact ⟨true, hq⟩
    · exact ⟨false, hq⟩
  obtain ⟨b', hb'⟩ := hside
  obtain ⟨huses, hresults, hpred⟩ := hwf.popped_local b' q.1 q.2 hb'
  refine ⟨hresults, hpred, fun hin => ?_⟩
  by_cases heq : b = b'
  · exact heq ▸ hb'
  · rw [Bool.eq_not_of_ne heq] at hin
    exact absurd hin huses

/-! ### The pair -/

variable {middle : State α → Option (State α)} {s s₁ s₂ s₃ : State α} {b : Bool}

theorem exists_hoisted (hwf : pair.WellFormed) (hexplores : pair.forward.ExploresBranches removalBlockExplore)
    (hmiddle : Transparent pair.caches middle) (hruns : pair.Runs isTrue middle s s₁ s₂ s₃)
    (hb : isTrue (s.values pair.forward.pred) = b) :
    ∃ sb t₁ t₂ th, runBlock (pair.forward.branch b).ops s = some sb ∧
      (pair.lowerForward removalBlockExplore).exec isTrue s = some t₁ ∧ middle t₁ = some t₂ ∧
      State.Agree pair.caches s₁ t₁ ∧
      runBlock ((pair.forward.pushedCaches removalBlockExplore).flatMap fun p =>
        pair.reverse.hoistPop p.2) t₂ = some th ∧
      th.gradients = s₂.gradients ∧
      (∀ x : Value, x.IsSource → x ∉ pair.reverse.pops.map Prod.snd → th.values x = s₂.values x) ∧
      (∀ c ∈ pair.caches, th.caches c = s.caches c) ∧
      (∀ c, c ∉ pair.caches → th.caches c = s₂.caches c) ∧
      (∀ c ∈ pair.caches, c ∉ (pushes (pair.forward.branch b).ops).map Prod.fst → s₂.caches c = s.caches c) ∧
      ∀ c u, (c, u) ∈ pushes (pair.forward.branch b).ops → s₂.caches c = sb.values u :: s.caches c ∧
        ∃ v, (c, v) ∈ pushes (pair.forward.explored removalBlockExplore b).branch.ops ∧
          (v ∈ definedIn (pair.forward.explored removalBlockExplore b).branch.ops →
            ∀ x, (c, x) ∈ pops (pair.reverse.branch b).ops → th.values x = sb.values u) ∧
          (v ∉ definedIn (pair.forward.explored removalBlockExplore b).branch.ops → sb.values u = s.valueBefore v ∧
            ∀ x, (c, x) ∈ pops (pair.reverse.branch b).ops → th.values x = 0) := by
  obtain ⟨sb, tb, t₁, hrun, hexec, hagree₁, hentries, hothers, hpushed, hkept⟩ :=
    forward_exec hwf hexplores hb hruns.forward
  obtain ⟨t₂, hmiddle₂, hagree₂⟩ := hmiddle.agree s₁ t₁ s₂ hagree₁ hruns.middle
  have hfull : ∀ p ∈ pair.forward.pushedCaches removalBlockExplore, t₂.caches p.2.cache =
      pair.forward.pushedContent removalBlockExplore b tb p :: s.caches p.2.cache := by
    intro p hp
    rw [hmiddle.keeps t₁ t₂ hmiddle₂, hentries p hp]
    exact mem_caches_of_members hexplores hp (IfOp.cache_mem_members hexplores p hp)
  obtain ⟨th, hhoist, hgradients, hrest, hcaches, hread, hvals⟩ :=
    IfOp.hoistPops_run (pops_source hwf) hwf.pops_snd
      (IfOp.caches_nodup hexplores hwf.pushesOnce)
      (IfOp.members_pairwise hexplores hwf.pushesOnce) hfull
  refine ⟨sb, t₁, t₂, th, hrun, hexec, hmiddle₂, hagree₁, hhoist,
    hgradients.trans hagree₂.gradients, fun x hx hnot => ?_, fun c hc => ?_, fun c hc => ?_,
    fun c hc hpush => ?_, fun c u hu => ⟨?_, ?_⟩⟩
  · rw [hvals x hx, hagree₂.values x hx]
    intro p _ q hq _ heq
    exact hnot (heq ▸ mem_map_of_mem hq)
  · by_cases hentry : c ∈ (pair.forward.pushedCaches removalBlockExplore).map fun p => p.2.cache
    · obtain ⟨p, hp, rfl⟩ := mem_map.mp hentry
      exact hrest p hp
    · rw [hcaches c hentry, hmiddle.keeps t₁ t₂ hmiddle₂ c hc, hothers c hentry]
  · have hentry : c ∉ (pair.forward.pushedCaches removalBlockExplore).map fun p => p.2.cache := by
      intro hin
      obtain ⟨p, hp, rfl⟩ := mem_map.mp hin
      exact hc (mem_caches_of_members hexplores hp (IfOp.cache_mem_members hexplores p hp))
    rw [hcaches c hentry, hagree₂.caches c hc]
  · rw [hmiddle.keeps s₁ s₂ hruns.middle c hc, hkept c hpush]
  · rw [hmiddle.keeps s₁ s₂ hruns.middle c (mem_caches_of_pushes hu), (hpushed c u hu).1]
  · obtain ⟨v, hv, hval, hbefore⟩ := (hpushed c u hu).2
    obtain ⟨info, hinfo, hmember⟩ := (IfOp.mem_members_iff hexplores c v).mpr ⟨b, hv⟩
    refine ⟨v, hv, fun hin x hx => ?_, fun hout => ⟨hbefore hout, fun x hx => ?_⟩⟩
    · rw [hread _ hinfo (c, x) (mem_reverse_pops hx) hmember, IfOp.pushedContent, if_pos hin, hval]
    · rw [hread _ hinfo (c, x) (mem_reverse_pops hx) hmember, IfOp.pushedContent, if_neg hout]

section

variable (hwf : pair.WellFormed) (hforward : pair.forward.ExploresBranches removalBlockExplore)

include hwf hforward

theorem exact_of_pushesInside (hreverse : pair.reverse.erasePops.ExploresBranches removalBlockExplore)
    (hmiddle : Transparent pair.caches middle) (hruns : pair.Runs isTrue middle s s₁ s₂ s₃)
    (hinside : pair.PushesInside removalBlockExplore (isTrue (s.values pair.forward.pred)) s) :
    pair.Exact removalBlockExplore isTrue middle s s₁ s₃ := by
  generalize hb : isTrue (s.values pair.forward.pred) = b at hinside
  obtain ⟨sb, t₁, t₂, th, hrun, hexec₁, hmiddle₂, hagree, hhoist, hgradients, hvals, hcaches,
    hothers, hkept, hpushed⟩ := exists_hoisted hwf hforward hmiddle hruns hb
  have hpopped : ∀ c u x, (c, u) ∈ pushes (pair.forward.branch b).ops →
      (c, x) ∈ pops (pair.reverse.branch b).ops → x ∈ (pair.reverse.branch b).uses →
      th.values x = sb.values u := by
    intro c u x hu hx huse
    obtain ⟨-, v, hv, hin, hout⟩ := hpushed c u hu
    by_cases hdefined : v ∈ definedIn (pair.forward.explored removalBlockExplore b).branch.ops
    · exact hin hdefined x hx
    · have hnull := (hinside c v x hv hx huse).resolve_left hdefined
      rw [(hout hdefined).2 x hx, (hout hdefined).1, hnull]
  -- The original reverse branch, with its pops made first.
  have hreverseExec := hruns.reverse
  rw [IfOp.exec, hruns.pred, hb] at hreverseExec
  obtain ⟨sr, hrunr, rfl⟩ := map_eq_some_iff.mp hreverseExec
  have hpopsFst : ((pops (pair.reverse.branch b).ops).map Prod.fst).Nodup := by
    have honce := hwf.pops_fst
    rw [IfOp.pops, map_append] at honce
    cases b with
    | true => exact honce.of_append_left
    | false => exact honce.of_append_right
  obtain ⟨p, hp, hpGradients, hpPopped, hpCaches, hpValues⟩ :=
    exists_runBlock_erasePops hrunr (hwf.reverse_pushes b) (hwf.reverse.ssa b) hpopsFst
  have hpred : isTrue (th.values pair.reverse.erasePops.pred) = b := by
    rw [← hb, ← hruns.pred]
    refine congrArg isTrue (hvals _ hwf.reverse.pred_source fun hin => ?_)
    obtain ⟨q, hq, heq⟩ := mem_map.mp hin
    exact (popped_unused (b := b) hwf hq).2.1 heq
  have huses : ∀ x ∈ (pair.reverse.erasePops.branch b).uses, th.values x = p.values x := by
    intro x hx
    have hx := mem_uses_of_erasePops hx
    by_cases hpop : x ∈ (pops (pair.reverse.branch b).ops).map Prod.snd
    · obtain ⟨⟨c, y⟩, hq, rfl⟩ := mem_map.mp hpop
      obtain ⟨u, hu⟩ := (hwf.matching b c).mpr ⟨y, hq⟩
      have hcache := hpPopped c y hq
      rw [(hpushed c u hu).1] at hcache
      rw [hpopped c u y hu hq hx, (cons.inj hcache).1]
    · rw [hpValues x hpop]
      refine hvals x (hwf.reverse.uses_source b x hx) fun hin => ?_
      obtain ⟨q, hq, rfl⟩ := mem_map.mp hin
      exact hpop (mem_map_of_mem ((popped_unused hwf hq).2.2 hx))
  obtain ⟨t₃, -, hexec₃, hgradients₃, hvalues₃, hcaches₃, -, -⟩ :=
    IfOp.removeEnzymeOps_exec (wellFormed_erasePops hwf.reverse) hreverse (pushesOnce_erasePops hwf)
      hpred (by rw [branch_erasePops]; exact hp) huses (hgradients.trans hpGradients.symm)
  have hcachesEq : ∀ c, t₃.caches c = sr.caches c := by
    intro c
    rw [hcaches₃ c (by rw [pushedCaches_erasePops hwf hreverse]; exact not_mem_nil),
      runBlock_caches_of_notMem hp (pops_erasePops _)
        (by rw [pushes_erasePops (hwf.reverse_pushes b)]; exact not_mem_nil)]
    by_cases hpop : c ∈ (pops (pair.reverse.branch b).ops).map Prod.fst
    · obtain ⟨⟨c, x⟩, hq, rfl⟩ := mem_map.mp hpop
      obtain ⟨u, hu⟩ := (hwf.matching b c).mpr ⟨x, hq⟩
      have hcache := hpPopped c x hq
      rw [(hpushed c u hu).1] at hcache
      rw [hcaches c (mem_caches_of_pushes hu), (cons.inj hcache).2]
    · rw [hpCaches c hpop]
      by_cases hc : c ∈ pair.caches
      · rw [hcaches c hc, hkept c hc]
        intro hpush
        obtain ⟨⟨c, u⟩, hq, rfl⟩ := mem_map.mp hpush
        obtain ⟨x, hx⟩ := (hwf.matching b c).mp ⟨u, hq⟩
        exact hpop (fst_mem hx)
      · exact hothers c hc
  refine ⟨t₁, t₂, t₃, hexec₁, hmiddle₂, ?_, hagree, ?_, fun x hx hnot => ?_, hgradients₃,
    funext hcachesEq⟩
  · rw [lowerReverse, Rewritten.exec, runBlock_append, hhoist, bind_some]
    exact hexec₃
  · intro b' sb' hb' hrun' c u x hu hx huse
    obtain rfl := hb.symm.trans hb'
    cases hrun.symm.trans hrun'
    have hq := mem_reverse_pops hx
    rw [IfOp.removeEnzymeOps_values hexec₃ (pops_source hwf _ hq) (popped_unused (b := b) hwf hq).1]
    exact hpopped c u x hu hx huse
  · rw [hvalues₃ x hx, branch_erasePops]
    have hlen : pair.reverse.results.length = ((pair.reverse.branch b).returns.map sr.values).length := by
      rw [length_map, hwf.reverse.returns_length]
    by_cases hmem : x ∈ pair.reverse.results
    · exact assign_congr hlen hmem _ _
    · refine (assign_of_notMem hmem _ _).trans ?_
      rw [hvals x hx hnot]
      exact (assign_of_notMem hmem _ _).symm

/-- The popped values that are used are the ones pushed only under this condition. -/
theorem pushesInside_of_exact (hmiddle : Transparent pair.caches middle) (hruns : pair.Runs isTrue middle s s₁ s₂ s₃)
    (hexact : pair.Exact removalBlockExplore isTrue middle s s₁ s₃) :
    pair.PushesInside removalBlockExplore (isTrue (s.values pair.forward.pred)) s := by
  generalize hb : isTrue (s.values pair.forward.pred) = b
  obtain ⟨sb, t₁, t₂, th, hrun, hexec₁, hmiddle₂, -, hhoist, -, -, -, -, -, hpushed⟩ :=
    exists_hoisted hwf hforward hmiddle hruns hb
  obtain ⟨t₁', t₂', t₃, hexec₁', hmiddle₂', hexec₃, -, hpopped, -⟩ := hexact
  cases hexec₁.symm.trans hexec₁'
  cases hmiddle₂.symm.trans hmiddle₂'
  rw [lowerReverse, Rewritten.exec, runBlock_append, hhoist, bind_some] at hexec₃
  intro c v x hv hx huse
  obtain ⟨⟨c, u⟩, hu, rfl⟩ := mem_map.mp (pushes_fst hforward b ▸ fst_mem hv)
  obtain ⟨-, v', hv', -, hout⟩ := hpushed c u hu
  obtain rfl := (IfOp.pushed_unique hforward hwf.pushesOnce hv hv').2
  by_cases hdefined : v ∈ definedIn (pair.forward.explored removalBlockExplore b).branch.ops
  · exact .inl hdefined
  · have hq := mem_reverse_pops hx
    have hval := hpopped b sb hb hrun c u x hu hx huse
    rw [IfOp.removeEnzymeOps_values hexec₃ (pops_source hwf _ hq)
      (popped_unused (b := b) hwf hq).1, (hout hdefined).2 x hx, (hout hdefined).1] at hval
    exact .inr hval.symm

end

/-- For every run of an if pair, the lowered pair is exact if and only if the values that are
pushed, popped and used are defined in the branch that pushes them, or null. -/
theorem exact_iff_pushesInside (hwf : pair.WellFormed) (hforward : pair.forward.ExploresBranches removalBlockExplore)
    (hreverse : pair.reverse.erasePops.ExploresBranches removalBlockExplore)
    (hmiddle : Transparent pair.caches middle) (hruns : pair.Runs isTrue middle s s₁ s₂ s₃) :
    pair.Exact removalBlockExplore isTrue middle s s₁ s₃ ↔
      pair.PushesInside removalBlockExplore (isTrue (s.values pair.forward.pred)) s :=
  ⟨pushesInside_of_exact hwf hforward hmiddle hruns,
    exact_of_pushesInside hwf hforward hreverse hmiddle hruns⟩

end

/-! ### A pair that doubles a value -/

/-- `y = p ? 2 * x : x`, with the double kept for the reverse if. -/
def doubling : IfPair Int where
  forward :=
    { pred := .source 0
      trueBranch := ⟨[.pure (.source 2) [.source 1] fun l => 2 * l.headD 0, .push 0 (.source 2),
        .set 0 (.source 2)], [.source 2]⟩
      falseBranch := ⟨[], [.source 1]⟩
      results := [.source 3] }
  reverse :=
    { pred := .source 0
      trueBranch := ⟨[.pop (.source 4) 0, .set 1 (.source 4)], []⟩
      falseBranch := ⟨[], []⟩
      results := [] }

/-- The pair that keeps the operand, a value from outside the if. -/
def keeping : IfPair Int where
  forward :=
    { pred := .source 0
      trueBranch := ⟨[.push 0 (.source 1)], [.source 1]⟩
      falseBranch := ⟨[], [.source 1]⟩
      results := [.source 3] }
  reverse := doubling.reverse

def start : State Int where
  values _ := 3
  gradients _ := 0
  caches _ := []

theorem doubling_wellFormed : doubling.WellFormed where
  forward :=
    { ssa := by decide
      definedIn_source := by decide
      uses_source := by decide
      results_source := by decide
      pred_source := by decide
      returns_length := by decide }
  reverse :=
    { ssa := by decide
      definedIn_source := by decide
      uses_source := by decide
      results_source := by decide
      pred_source := by decide
      returns_length := by decide }
  forward_pops := by decide
  reverse_pushes := by decide
  pushesOnce := by simp [IfOp.PushesOnce, doubling, pushes]
  pops_fst := by decide
  pops_snd := by decide
  matching b c := by cases b <;> simp [doubling, IfOp.branch, pushes, pops]
  popped_local b c x := by
    cases b <;>
      simp +contextual [doubling, IfOp.branch, pops, Branch.uses, BlockOp.operands]

theorem keeping_wellFormed : keeping.WellFormed where
  forward :=
    { ssa := by decide
      definedIn_source := by decide
      uses_source := by decide
      results_source := by decide
      pred_source := by decide
      returns_length := by decide }
  reverse := doubling_wellFormed.reverse
  forward_pops := by decide
  reverse_pushes := doubling_wellFormed.reverse_pushes
  pushesOnce := by simp [IfOp.PushesOnce, keeping, pushes]
  pops_fst := doubling_wellFormed.pops_fst
  pops_snd := doubling_wellFormed.pops_snd
  matching b c := by cases b <;> simp [keeping, doubling, IfOp.branch, pushes, pops]
  popped_local := doubling_wellFormed.popped_local

/-- The doubled value is handed over. -/
theorem exact_doubling : ∃ s₁ s₃,
    doubling.Runs (fun p => decide (p ≠ 0)) some start s₁ s₁ s₃ ∧
      doubling.Exact explore (fun p => decide (p ≠ 0)) some start s₁ s₃ := by
  have hruns : doubling.Runs (fun p => decide (p ≠ 0)) some start _ _ _ := ⟨rfl, rfl, rfl, rfl⟩
  refine ⟨_, _, hruns, (exact_iff_pushesInside doubling_wellFormed
    (exploresBranches_explore doubling_wellFormed.forward doubling_wellFormed.forward_pops)
    (exploresBranches_explore (wellFormed_erasePops doubling_wellFormed.reverse)
      (fun b => by rw [branch_erasePops]; exact pops_erasePops _))
    (transparent_some _) hruns).mpr ?_⟩
  intro c v x hv _ _
  have hv : (c, v) ∈ [(0, Value.source 2)] := hv
  obtain ⟨-, rfl⟩ := Prod.mk.inj (mem_singleton.mp hv)
  exact .inl (by decide)

/-- The operand comes back as zero. -/
theorem not_exact_keeping : ∃ s₁ s₃, keeping.WellFormed ∧
    keeping.Runs (fun p => decide (p ≠ 0)) some start s₁ s₁ s₃ ∧
      ¬ keeping.Exact explore (fun p => decide (p ≠ 0)) some start s₁ s₃ := by
  have hruns : keeping.Runs (fun p => decide (p ≠ 0)) some start _ _ _ := ⟨rfl, rfl, rfl, rfl⟩
  refine ⟨_, _, keeping_wellFormed, hruns, fun hexact => ?_⟩
  have hinside := pushesInside_of_exact keeping_wellFormed
    (exploresBranches_explore keeping_wellFormed.forward keeping_wellFormed.forward_pops)
    (transparent_some _) hruns hexact
  have hpush := hinside 0 (.source 1) (.source 4) mem_cons_self mem_cons_self
    mem_cons_self
  exact absurd hpush (by decide)

end IfPair

end EnzymeJax
