import EnzymeJax.Enzyme.WhileForward
import EnzymeJax.Enzyme.WhilePops

/-!
# What a lowered reverse loop computes

The reverse loop is rewritten twice: its pops become reads together with the forward loop, then its
gradients become carried values.
-/

namespace EnzymeJax

open Contents List Option

variable {α : Type*}

variable {ops : List (BlockOp α)}

theorem results_inj (hssa : Ssa ops) {op op' : BlockOp α} (hop : op ∈ ops) (hop' : op' ∈ ops) {x : Value}
    (hx : x ∈ op.results) (hx' : x ∈ op'.results) : op = op' := by
  have hdisjoint : ops.Pairwise fun op op' => ∀ x ∈ op.results, x ∉ op'.results :=
    hssa.imp fun h x hx hx' => (h x hx').2 hx
  have hsymm : Std.Symm fun op op' : BlockOp α => ∀ x ∈ op.results, x ∉ op'.results :=
    ⟨fun _ _ h x hx hx' => h x hx' hx⟩
  by_contra hne
  exact hdisjoint.forall hop hop' hne x hx hx'

variable [Contents α]

section

variable {inside hoisted : List CachedValue}

theorem results_lowerPop (op : BlockOp α) : (LoopOp.lowerPop inside hoisted op).results = op.results := by
  cases op with
  | pop x c =>
    rw [LoopOp.lowerPop]
    split
    · rfl
    · split <;> rfl
  | _ => rfl

theorem operands_lowerPop {op : BlockOp α} {x : Value} (hx : x ∈ (LoopOp.lowerPop inside hoisted op).operands) :
    x ∈ op.operands ∨ x.IsCache ∧ x ≠ .nextCounter := by
  cases op with
  | pop y c =>
    rw [LoopOp.lowerPop] at hx
    split at hx
    · obtain rfl := mem_singleton.mp hx
      exact .inr ⟨rfl, Value.noConfusion⟩
    · split at hx
      · rcases mem_cons.mp hx with rfl | hx
        · exact .inr ⟨rfl, Value.noConfusion⟩
        · obtain rfl := mem_singleton.mp hx
          exact .inr ⟨rfl, Value.noConfusion⟩
      · cases hx
  | _ => exact .inl hx

theorem definedIn_lowerPop (ops : List (BlockOp α)) :
    definedIn (ops.map (LoopOp.lowerPop inside hoisted)) = definedIn ops := by
  rw [definedIn, definedIn, flatMap_map]
  exact congrArg (ops.flatMap ·) (funext results_lowerPop)

theorem ssa_lowerPop (hssa : Ssa ops) (hdefined : ∀ x ∈ definedIn ops, ¬x.IsCache) :
    Ssa (ops.map (LoopOp.lowerPop inside hoisted)) := by
  refine pairwise_map.mpr (hssa.imp_of_mem fun {op op'} _ hop' h x hx => ?_)
  rw [results_lowerPop] at hx ⊢
  refine ⟨fun hin => ?_, (h x hx).2⟩
  rcases operands_lowerPop hin with hin | hcache
  · exact (h x hx).1 hin
  · exact hdefined x (mem_flatMap.mpr ⟨op', hop', hx⟩) hcache.1

theorem mem_of_lowerPop {op : BlockOp α} (hop : op ∈ ops.map (LoopOp.lowerPop inside hoisted)) :
    op ∈ ops ∨ ∃ x operands fn, op = .pure x operands fn := by
  obtain ⟨op', hop', rfl⟩ := mem_map.mp hop
  cases op' with
  | pop x c =>
    rw [LoopOp.lowerPop]
    split
    · exact .inr ⟨_, _, _, rfl⟩
    · split
      · exact .inr ⟨_, _, _, rfl⟩
      · exact .inl hop'
  | _ => exact .inl hop'

end

namespace LoopOp

variable {op : LoopOp α} {info : LoopInfo} {counts : Bool} {inside hoisted : List CachedValue}

theorem mem_lowerPops_body {o : BlockOp α} (ho : o ∈ (op.lowerPops info counts inside hoisted).op.body) :
    o ∈ op.body ∨ ∃ x operands fn, o = .pure x operands fn := by
  rw [lowerPops_body] at ho
  rcases mem_append.mp ho with ho | ho
  · exact mem_of_lowerPop ho
  · cases counts with
    | true => exact .inr ⟨_, _, _, mem_singleton.mp ho⟩
    | false => cases ho

theorem pushes_lowerPops (hpushes : pushes op.body = []) :
    pushes (op.lowerPops info counts inside hoisted).op.body = [] := by
  refine eq_nil_iff_forall_not_mem.mpr fun q hq => ?_
  obtain ⟨o, ho, heq⟩ := mem_filterMap.mp hq
  rcases mem_lowerPops_body ho with ho | ⟨x, operands, fn, rfl⟩
  · have hmem : q ∈ pushes op.body := mem_filterMap.mpr ⟨o, ho, heq⟩
    rw [hpushes] at hmem
    exact not_mem_nil hmem
  · cases heq

theorem definedIn_lowerPops :
    definedIn (op.lowerPops info counts inside hoisted).op.body =
      definedIn op.body ++ if counts then [.nextCounter] else [] := by
  rw [lowerPops_body, definedIn, flatMap_append]
  refine congrArg₂ _ (definedIn_lowerPop op.body) ?_
  cases counts <;> rfl

theorem lowerPops_over (info : LoopInfo) (counts : Bool) (inside hoisted : List CachedValue)
    {P : Value → Prop} (hover : op.Over P) (hcache : ∀ x : Value, x.IsCache → P x) :
    (op.lowerPops info counts inside hoisted).op.Over P := by
  have hnew : ∀ x : Value, x.IsCache → ∀ y ∈ (if counts then [x] else []), P y := by
    intro x hx y hy
    cases counts with
    | true => exact mem_singleton.mp hy ▸ hcache x hx
    | false => cases hy
  have hcond : (op.lowerPops info counts inside hoisted).op.condUses = op.condUses := by
    cases counts <;> rfl
  refine ⟨?_, ?_, hcond ▸ hover.condUses, fun o ho x hx => ?_, fun x hx => ?_, ?_, ?_⟩
  · rw [lowerPops_operands]
    exact forall_mem_append.mpr ⟨hover.operands, hnew _ rfl⟩
  · rw [lowerPops_args]
    exact forall_mem_append.mpr ⟨hover.args, hnew _ rfl⟩
  · rw [lowerPops_body] at ho
    rcases mem_append.mp ho with ho | ho
    · obtain ⟨o', ho', rfl⟩ := mem_map.mp ho
      exact (operands_lowerPop hx).elim (hover.uses o' ho' x) fun h => hcache x h.1
    · cases counts with
      | true =>
        obtain rfl := mem_singleton.mp ho
        exact hcache x (mem_singleton.mp hx ▸ rfl)
      | false => cases ho
  · rw [definedIn_lowerPops] at hx
    exact forall_mem_append.mpr ⟨hover.definedIn, hnew _ rfl⟩ x hx
  · rw [lowerPops_returns]
    exact forall_mem_append.mpr ⟨hover.returns, hnew _ rfl⟩
  · rw [lowerPops_results]
    exact forall_mem_append.mpr ⟨hover.results, hnew _ rfl⟩

theorem lowerPops_wellFormed (hwf : op.WellFormed) (hover : op.Over fun x => ¬x.IsCache) :
    (op.lowerPops info counts inside hoisted).op.WellFormed where
  ssa := by
    rw [lowerPops_body]
    have hbody : Ssa (op.body.map (lowerPop inside hoisted)) :=
      ssa_lowerPop hwf.ssa hover.definedIn
    cases counts with
    | false =>
      change Ssa (_ ++ [])
      rwa [append_nil]
    | true =>
      refine pairwise_append.mpr ⟨hbody, pairwise_singleton _ _, fun o ho o' ho' x hx => ?_⟩
      obtain rfl := mem_singleton.mp ho'
      obtain rfl := mem_singleton.mp hx
      obtain ⟨o₀, ho₀, rfl⟩ := mem_map.mp ho
      refine ⟨fun hin => ?_, fun hin => ?_⟩
      · rcases operands_lowerPop hin with hin | hne
        · exact hover.uses o₀ ho₀ _ hin rfl
        · exact hne.2 rfl
      · rw [results_lowerPop] at hin
        exact hover.definedIn _ (mem_flatMap.mpr ⟨o₀, ho₀, hin⟩) rfl
  args_nodup := by
    rw [lowerPops_args]
    cases counts with
    | false => exact (append_nil _).symm ▸ hwf.args_nodup
    | true =>
      exact nodup_append'.mpr ⟨hwf.args_nodup, nodup_singleton _,
        disjoint_singleton.mpr fun hin => hover.args _ hin rfl⟩
  args_fresh x hx hin := by
    rw [definedIn_lowerPops] at hin
    rw [lowerPops_args] at hx
    rcases mem_append.mp hx with harg | hx
    · rcases mem_append.mp hin with hin | hin
      · exact hwf.args_fresh x harg hin
      · cases counts with
        | true => exact hover.args x harg (mem_singleton.mp hin ▸ rfl)
        | false => cases hin
    · cases counts with
      | true =>
        obtain rfl := mem_singleton.mp hx
        rcases mem_append.mp hin with hin | hin
        · exact hover.definedIn _ hin rfl
        · cases mem_singleton.mp hin
      | false => cases hx
  operands_length := by
    rw [lowerPops_operands, lowerPops_args, length_append, length_append, hwf.operands_length]
    cases counts <;> rfl
  returns_length := by
    rw [lowerPops_returns, lowerPops_args, length_append, length_append, hwf.returns_length]
    cases counts <;> rfl
  results_length := by
    rw [lowerPops_results, lowerPops_args, length_append, length_append, hwf.results_length]

/-! ### A loop without pushes -/

theorem lowerCaches_nil (info : LoopInfo) (iv : Option Value) (hpushes : pushes op.body = []) :
    op.lowerCaches info iv [] [] = ⟨[], op, []⟩ := by
  have hbody : op.body.filterMap (lowerPush iv []) = op.body := by
    have hkept : ∀ o ∈ op.body, lowerPush iv [] o = some o := by
      intro o ho
      cases o with
      | push c v =>
        have hmem : (c, v) ∈ pushes op.body := mem_filterMap.mpr ⟨_, ho, rfl⟩
        rw [hpushes] at hmem
        exact absurd hmem not_mem_nil
      | _ => rfl
    rw [filterMap_congr hkept, filterMap_some]
  rw [lowerCaches]
  simp only [map_nil, append_nil, hbody, ne_eq, not_true_eq_false, false_and, if_false]

omit [Contents α] in
theorem pushes_promoteGradients (hssa : Ssa op.body) (hpushes : pushes op.body = []) :
    pushes op.promoteGradients.op.body = [] := by
  change pushes (promote op.body id op.gradientStart).ops = []
  rw [pushes_promote hssa, hpushes, map_nil]

/-- On a loop without pushes the gradients are lowered alone. -/
theorem removeEnzymeOps_exec (info : LoopInfo) (hwf : op.WellFormed) (hover : op.Over fun x => ¬x.IsGradient)
    (hpushes : pushes op.body = []) {n : Nat} {s s' : State α} (h : op.exec n s = some s') :
    ∃ r t', op.removeEnzymeOps info = some r ∧ r.op.WellFormed ∧ r.exec n s = some t' ∧
      (∀ x : Value, ¬x.IsGradient → t'.values x = s'.values x) ∧ t'.gradients = s'.gradients ∧
      t'.caches = s'.caches ∧ ∀ k < n, ∀ e, op.bodyEnd k s = some e → ∃ e', r.bodyEnd k s = some e' ∧
          ∀ x : Value, ¬x.IsGradient → (∀ g, .get x g ∉ op.body) → e'.values x = e.values x := by
  have hnone : op.pushedCaches = [] := by
    rw [pushedCaches, hpushes]
    rfl
  by_cases hearly : op.updatedGradients = [] ∧ op.pushedCaches = []
  · refine ⟨⟨[], op, []⟩, s', if_pos hearly, hwf, ?_, fun _ _ => rfl, rfl, rfl,
      fun k _ e he => ⟨e, he, fun _ _ _ => rfl⟩⟩
    rw [RewrittenLoop.exec, runBlock, bind_some, h]
    rfl
  · obtain ⟨t, t', hbefore, -, -, hexec, hvals, hcaches, hgradients, hbodies⟩ :=
      promoteGradients_exec hwf hover h
    have hinside : op.inside = [] := by
      rw [inside, hnone]
      rfl
    have hhoisted : op.hoisted = [] := by
      rw [hoisted, hnone]
      rfl
    have hremove : op.removeEnzymeOps info = some (op.promoteGradients.around ⟨[], op.promoteGradients.op, []⟩) := by
      rw [removeEnzymeOps, if_neg hearly, hinside, hhoisted,
        lowerCaches_nil _ _ (pushes_promoteGradients hwf.ssa hpushes)]
      exact if_neg fun hne => hne.1 rfl
    have hinner : (⟨[], op.promoteGradients.op, []⟩ : RewrittenLoop α).exec n t = some t' := by
      rw [RewrittenLoop.exec, runBlock, bind_some, hexec]
      rfl
    refine ⟨_, _, hremove, promoteGradients_wellFormed hwf hover,
      RewrittenLoop.around_exec hbefore hinner (runBlock_sets _ t'), hvals, funext hgradients,
      hcaches, fun k hk e he => ?_⟩
    obtain ⟨e', he', hagree⟩ := hbodies k hk e he
    refine ⟨e', bind_eq_some_iff.mpr ⟨t, ?_, he'⟩, hagree⟩
    exact (congrArg (runBlock · s) (append_nil _)).trans hbefore

end LoopOp

/-! ### The reverse loop of a pair -/

namespace LoopPair

variable {pair : LoopPair α} {numRows n : Nat}

/-- A counter is added to the reverse loop. -/
def counts (pair : LoopPair α) : Bool :=
  (pair.forward.inductionVariable pair.info).isSome && !pair.forward.pushedCaches.isEmpty

variable {pushed : CachedValue → List α}

theorem exists_content {inside hoisted : List CachedValue} {s s₁ t₁ : State α}
    (h : LoopOp.Handed inside hoisted numRows n s s₁ t₁ pushed) :
    ∃ content : CachedValue → α, (∀ e ∈ inside ++ hoisted, t₁.caches e.1.cache = content e :: s.caches e.1.cache) ∧
      (∀ e ∈ inside, (rows (content e)).length = numRows ∧ (rows (content e)).take n = (pushed e).reverse) ∧
      ∀ e ∈ hoisted, pushed e = replicate n (content e) := by
  refine ⟨fun e => (t₁.caches e.1.cache).headD 0, fun e he => ?_, fun e he => ?_, fun e he => ?_⟩
  · rcases mem_append.mp he with he | he
    · obtain ⟨b, hb, -⟩ := h.held e he
      simp only [hb, headD_cons]
    · obtain ⟨a, ha, -⟩ := h.heldOutside e he
      simp only [ha, headD_cons]
  · obtain ⟨b, hb, hrows⟩ := h.held e he
    simp only [hb, headD_cons]
    exact hrows
  · obtain ⟨a, ha, hpushed⟩ := h.heldOutside e he
    simp only [ha, headD_cons]
    exact hpushed

/-- From what the lowered forward loop hands over, the lowered reverse loop computes what the
reverse loop does, and pops the same values. -/
theorem lowerReverse_exec (hwf : pair.WellFormed) {s s₁ t₁ s₂ t₂ s₃ : State α}
    (hhanded : LoopOp.Handed pair.forward.inside pair.forward.hoisted numRows n s s₁ t₁ pushed)
    (hagree : State.Agree pair.caches s₂ t₂) (hkept : ∀ c ∈ pair.caches, s₂.caches c = s₁.caches c)
    (hkept' : ∀ c ∈ pair.caches, t₂.caches c = t₁.caches c) (hcounts : pair.forward.inside ≠ [] → pair.counts = true)
    (hstart : pair.counts = true → 0 < n → pair.info.countFrom s₂ = n - 1) (h : pair.reverse.exec n s₂ = some s₃) :
    ∃ r t₃, pair.lowerReverse = some r ∧ r.op.WellFormed ∧ r.exec n t₂ = some t₃ ∧
      (∀ x : Value, x.IsSource → t₃.values x = s₃.values x) ∧ t₃.gradients = s₃.gradients ∧
      t₃.caches = s₃.caches ∧ ∀ k < n, ∀ e, pair.reverse.bodyEnd k s₂ = some e → ∃ e', r.bodyEnd k t₂ = some e' ∧
          ∀ c x, (c, x) ∈ pops pair.reverse.body → e'.values x = e.values x := by
  have hcaches := LoopOp.cachesOf_entries hwf.forward.ssa hwf.pushes_once
  have hmem : ∀ e ∈ pair.forward.inside ++ pair.forward.hoisted, ∀ c ∈ e.1.members, c ∈ pair.caches :=
    fun e he c hc => (LoopOp.mem_members hwf.forward.ssa hwf.pushes_once).mp ⟨e, he, hc⟩
  obtain ⟨content, hheld, hrows, houtside⟩ := exists_content hhanded
  obtain ⟨th, t', hbefore, hexec, hagree', hcaches', hbodies⟩ := LoopOp.lowerPops_exec
    (P := fun x => x.IsSource) (t := t₂) pair.info pair.counts s.caches hwf.reverse
    (fun _ => LoopOp.not_isCache_of_isSource) hwf.reverse_source
    hwf.reverse_pushes hwf.pops_once hcaches.toEntries
    (fun e he c hc => hwf.popped c (hmem e he c hc)) hwf.limit_source hcounts
    hhanded.pushed_length hrows houtside ⟨hagree.values, hagree.gradients⟩
    (fun e he c hc => (hkept c (hmem e he c hc)).trans (hhanded.contents e he c hc))
    (fun e he => (hkept' _ (hmem e he _ (hcaches.cache_mem e he))).trans (hheld e he))
    (fun e he c hc hnot => (hkept' c (hmem e he c hc)).trans (hhanded.lowered c hnot))
    (fun c hc => hagree.caches c fun hin => by
      obtain ⟨e, he, hce⟩ := (LoopOp.mem_members hwf.forward.ssa hwf.pushes_once).mpr hin
      exact hc e he hce)
    hstart h
  have hsrc : ∀ x : Value, x.IsSource ∨ x.IsCache → ¬x.IsGradient := by
    intro x hx
    rcases hx with hx | hx
    · exact LoopOp.not_isGradient_of_isSource hx
    · intro hgradient
      cases x <;> cases hgradient <;> cases hx
  have hover := LoopOp.lowerPops_over pair.info pair.counts pair.forward.inside pair.forward.hoisted
    (hwf.reverse_source.mono fun x hx => hsrc x (.inl hx)) fun x hx => hsrc x (.inr hx)
  obtain ⟨r, t₃, hremove, hrwf, hexec', hvals, hgradients, hcaches₃, hbodies'⟩ :=
    LoopOp.removeEnzymeOps_exec pair.reverseInfo (LoopOp.lowerPops_wellFormed hwf.reverse
      (hwf.reverse_source.mono fun _ => LoopOp.not_isCache_of_isSource)) hover
      (LoopOp.pushes_lowerPops hwf.reverse_pushes) hexec
  refine ⟨⟨(pair.reverse.lowerPops pair.info pair.counts pair.forward.inside
    pair.forward.hoisted).before ++ r.before, r.op, r.after⟩, t₃,
    congrArg (Option.map _) hremove, hrwf, ?_, fun x hx => ?_,
    hgradients.trans hagree'.gradients, hcaches₃.trans hcaches', fun k hk e he => ?_⟩
  · rw [RewrittenLoop.exec, runBlock_append, hbefore]
    exact hexec'
  · exact (hvals x (hsrc x (.inl hx))).trans (hagree'.values x hx)
  · obtain ⟨e', he', hagreeEnd⟩ := hbodies k hk e he
    obtain ⟨e'', he'', hsame⟩ := hbodies' k hk e' he'
    refine ⟨e'', ?_, fun c x hx => ?_⟩
    · rw [RewrittenLoop.bodyEnd, runBlock_append, hbefore]
      exact he''
    · have hpop : .pop x c ∈ pair.reverse.body := mem_pops.mp hx
      have hdefined : x.IsSource := hwf.reverse_source.definedIn x
        (mem_flatMap.mpr ⟨_, hpop, mem_cons_self⟩)
      have hget : ∀ g, .get x g ∉ (pair.reverse.lowerPops pair.info pair.counts pair.forward.inside
          pair.forward.hoisted).op.body := by
        intro g hin
        rcases LoopOp.mem_lowerPops_body hin with hin | ⟨y, operands, fn, heq⟩
        · cases results_inj hwf.reverse.ssa hpop hin mem_cons_self mem_cons_self
        · cases heq
      exact (hsame x (hsrc x (.inl hdefined)) hget).trans (hagreeEnd.values x hdefined)

end LoopPair

end EnzymeJax
