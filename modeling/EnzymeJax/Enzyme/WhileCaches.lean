import EnzymeJax.Enzyme.WhileGradients

/-!
# Caches as rows of a carried tensor

Along the forward loop the buffer of a cache holds in its first rows what has been pushed so far,
oldest first. The reverse loop reads them from the last one down.
-/

namespace EnzymeJax

open Contents List Option Function

variable {α : Type*}

/-- A value created for a cache. -/
def Value.IsCache : Value → Bool
  | source _ | outerGet _ | gradient _ | gradientArg _ => false
  | _ => true

/-! ### Rows -/

theorem take_set_succ {l : List α} {k : Nat} (hk : k < l.length) (a : α) :
    (l.set k a).take (k + 1) = l.take k ++ [a] := by
  have hk' : k < (l.set k a).length := by rwa [length_set]
  rw [take_succ_eq_append_getElem hk', take_set_of_le (le_refl k), getElem_set_self]

theorem getD_of_take {l xs : List α} {n j : Nat} (hxs : xs.length = n)
    (htake : l.take n = xs.reverse) (hj : j < n) (a : α) : l.getD (n - 1 - j) a = xs.getD j a := by
  have hlt : n - 1 - j < n := by omega
  have hread : l[n - 1 - j]? = xs[j]? := by
    rw [← getElem?_take_of_lt hlt, htake, getElem?_reverse (by omega), hxs]
    congr 1
    omega
  rw [getD_eq_getElem?_getD, getD_eq_getElem?_getD, hread]

section

variable [Contents α]

/-! ### The body of the forward loop -/

variable {ops : List (BlockOp α)} {P : Value → Prop} {t s' : State α}

theorem mem_definedIn_lowerPush {iv : Option Value} {buffers : List Nat} {x : Value}
    (hx : x ∈ definedIn (ops.filterMap (LoopOp.lowerPush iv buffers))) :
    x ∈ definedIn ops ∨ ∃ c ∈ (pushes ops).map Prod.fst, x = .updated c := by
  obtain ⟨op', hop', hres⟩ := mem_flatMap.mp hx
  obtain ⟨op, hop, hlower⟩ := mem_filterMap.mp hop'
  have hkept : some op = some op' → x ∈ definedIn ops := by
    intro heq
    obtain rfl := some.inj heq
    exact mem_flatMap.mpr ⟨op, hop, hres⟩
  cases op with
  | push c v =>
    rw [LoopOp.lowerPush] at hlower
    split at hlower
    · cases hlower
      refine .inr ⟨c, ?_, mem_singleton.mp hres⟩
      exact mem_map.mpr ⟨(c, v), mem_filterMap.mpr ⟨_, hop, rfl⟩, rfl⟩
    · cases hlower
  | pure result operands fn | get result g | set g v | pop result c => exact .inl (hkept hlower)

/-- The states of a block and of its lowering agree on the values that satisfy `P`. -/
structure AgreeOn (P : Value → Prop) (s t : State α) : Prop where
  values : ∀ x, P x → t.values x = s.values x
  gradients : t.gradients = s.gradients

omit [Contents α] in
theorem AgreeOn.update {s : State α} (h : AgreeOn P s t) (result : Value) (a : α)
    (caches caches' : Nat → List α) : AgreeOn P ⟨update s.values result a, s.gradients, caches⟩
      ⟨update t.values result a, t.gradients, caches'⟩ where
  values x hx := by
    by_cases heq : x = result
    · simp only [heq, update_self]
    · simp only [update_of_ne heq]
      exact h.values x hx
  gradients := h.gradients

omit [Contents α] in
theorem AgreeOn.map_operands {s : State α} (h : AgreeOn P s t) {xs : List Value} (hxs : ∀ x ∈ xs, P x) :
    xs.map t.values = xs.map s.values :=
  map_congr_left fun x hx => h.values x (hxs x hx)

abbrev AgreeOff (s t : State α) : Prop := AgreeOn (fun x => ¬x.IsCache) s t

/-- The index a start operand gives. -/
def startIndex (iv : Option Value) (t : State α) : α := (iv.map t.values).getD 0

/-- The block with buffers computes the same values, and one more row of each buffer. -/
theorem lowerPush_run (iv : Option Value) (buffers : List Nat) {s : State α} (hrun : runBlock ops s = some s')
    (hpops : pops ops = []) (hssa : Ssa ops) (huses : ∀ o ∈ ops, ∀ x ∈ o.operands, ¬x.IsCache)
    (hdefined : ∀ x ∈ definedIn ops, ¬x.IsCache) (honce : ((pushes ops).map Prod.fst).Nodup)
    (hiv : ∀ i ∈ iv, i ∉ definedIn ops ∧ ¬i.IsCache) (hagree : AgreeOff s t) :
    ∃ t', runBlock (ops.filterMap (LoopOp.lowerPush iv buffers)) t = some t' ∧ AgreeOff s' t' ∧
      t'.caches = t.caches ∧ ∀ c ∈ buffers, ∀ v, (c, v) ∈ pushes ops → t'.values (.updated c) =
          updateRow (t.values (.cacheArg c)) (s'.values v) (startIndex iv t) := by
  induction ops generalizing s t with
  | nil =>
    cases hrun
    refine ⟨t, rfl, hagree, rfl, ?_⟩
    rintro _ _ _ ⟨⟩
  | cons op ops ih =>
    obtain ⟨s₁, hexec, hrest⟩ := runBlock_cons_eq_some.mp hrun
    obtain ⟨huses₁, huses'⟩ := forall_mem_cons.mp huses
    have hssa' : Ssa ops := (pairwise_cons.mp hssa).2
    have hdefined' : ∀ x ∈ definedIn ops, ¬x.IsCache :=
      fun x hx => hdefined x (mem_definedIn_cons.mpr (.inr hx))
    have hiv' : ∀ i ∈ iv, i ∉ definedIn ops ∧ ¬i.IsCache := fun i hi =>
      ⟨fun hin => (hiv i hi).1 (mem_definedIn_cons.mpr (.inr hin)), (hiv i hi).2⟩
    -- A result does not change what the buffers are updated with.
    have hres : ∀ result, op.results = [result] → ∀ a, ∀ c, ∀ gradients caches,
        (⟨update t.values result a, gradients, caches⟩ : State α).values (.cacheArg c) = t.values (.cacheArg c) ∧
          startIndex iv (⟨update t.values result a, gradients, caches⟩ : State α) = startIndex iv t := by
      intro result hop a c gradients caches
      have hin : result ∈ definedIn (op :: ops) :=
        mem_definedIn_cons.mpr (.inl (hop ▸ mem_cons_self))
      have harg : .cacheArg c ≠ result := fun heq => hdefined result hin (heq ▸ rfl)
      refine ⟨update_of_ne harg .., ?_⟩
      cases iv with
      | none => rfl
      | some i =>
        have hne : i ≠ result := fun heq => (hiv i rfl).1 (heq ▸ hin)
        exact update_of_ne hne ..
    cases op with
    | pop result c => cases hpops
    | pure result operands fn =>
      cases hexec
      have hops : operands.map t.values = operands.map s.values :=
        hagree.map_operands huses₁
      obtain ⟨t', hrun', hagree', hcaches, hrows⟩ := ih hrest hpops hssa' huses' hdefined' honce hiv'
        (hagree.update result (fn (operands.map s.values)) s.caches t.caches)
      refine ⟨t', ?_, hagree', hcaches, fun c hc v hv => ?_⟩
      · change runBlock (.pure result operands fn :: _) t = _
        rw [runBlock, BlockOp.exec, bind_some, hops]
        exact hrun'
      · obtain ⟨harg, hindex⟩ := hres result rfl (fn (operands.map s.values)) c t.gradients t.caches
        rw [hrows c hc v hv, harg, hindex]
    | get result g =>
      cases hexec
      obtain ⟨t', hrun', hagree', hcaches, hrows⟩ := ih hrest hpops hssa' huses' hdefined' honce hiv'
        (hagree.update result (s.gradients g) s.caches t.caches)
      refine ⟨t', ?_, hagree', hcaches, fun c hc v hv => ?_⟩
      · change runBlock (.get result g :: _) t = _
        rw [runBlock, BlockOp.exec, bind_some, congrFun hagree.gradients g]
        exact hrun'
      · obtain ⟨harg, hindex⟩ := hres result rfl (s.gradients g) c t.gradients t.caches
        rw [hrows c hc v hv, harg, hindex]
    | set g v =>
      cases hexec
      have hval := hagree.values v (huses₁ v mem_cons_self)
      have hnext : AgreeOff ⟨s.values, update s.gradients g (s.values v), s.caches⟩
          ⟨t.values, update t.gradients g (t.values v), t.caches⟩ :=
        ⟨hagree.values, by rw [hagree.gradients, hval]⟩
      obtain ⟨t', hrun', hagree', hcaches, hrows⟩ :=
        ih hrest hpops hssa' huses' hdefined' honce hiv' hnext
      exact ⟨t', hrun', hagree', hcaches, hrows⟩
    | push c v =>
      cases hexec
      obtain ⟨hc, honce'⟩ := nodup_cons.mp honce
      have hval := hagree.values v (huses₁ v mem_cons_self)
      by_cases hbuffer : c ∈ buffers
      · have hnext : AgreeOff ⟨s.values, s.gradients, update s.caches c (s.values v :: s.caches c)⟩
            ⟨update t.values (.updated c)
              (updateRow (t.values (.cacheArg c)) (t.values v) (startIndex iv t)), t.gradients,
              t.caches⟩ := by
          refine ⟨fun x hx => ?_, hagree.gradients⟩
          have hne : x ≠ .updated c := fun heq => hx (heq ▸ rfl)
          exact (update_of_ne hne ..).trans (hagree.values x hx)
        obtain ⟨t', hrun', hagree', hcaches, hrows⟩ :=
          ih hrest hpops hssa' huses' hdefined' honce' hiv' hnext
        have hindex : startIndex iv (⟨update t.values (.updated c)
            (updateRow (t.values (.cacheArg c)) (t.values v) (startIndex iv t)), t.gradients,
            t.caches⟩ : State α) = startIndex iv t := by
          cases iv with
          | none => rfl
          | some i =>
            have hne : i ≠ .updated c := fun heq => (hiv i rfl).2 (heq ▸ rfl)
            exact update_of_ne hne ..
        refine ⟨t', ?_, hagree', hcaches, fun c' hc' v' hv' => ?_⟩
        · have hlower : LoopOp.lowerPush iv buffers (.push c v : BlockOp α) = _ := if_pos hbuffer
          rw [filterMap_cons_some hlower, runBlock, BlockOp.exec, bind_some]
          cases iv with
          | none | some i => exact hrun'
        · rcases mem_cons.mp hv' with heq | hv'
          · obtain ⟨rfl, rfl⟩ := Prod.mk.inj heq
            have hkept : .updated c' ∉ definedIn (ops.filterMap (LoopOp.lowerPush iv buffers)) := by
              intro hin
              rcases mem_definedIn_lowerPush hin with hin | ⟨c'', hc'', heq⟩
              · exact hdefined' _ hin rfl
              · exact hc (Value.updated.inj heq ▸ hc'')
            have hlater : v' ∉ definedIn ops :=
              fun hin => (notMem_of_ssa hssa hin).1 mem_cons_self
            rw [runBlock_values hrun' hkept, runBlock_values hrest hlater, ← hval]
            exact update_self ..
          · rw [hrows c' hc' v' hv', hindex]
            refine congrArg (updateRow · _ _) ?_
            have hne : Value.cacheArg c' ≠ .updated c := Value.noConfusion
            exact update_of_ne hne
              (updateRow (t.values (.cacheArg c)) (t.values v) (startIndex iv t)) t.values
      · have hnext : AgreeOff
            ⟨s.values, s.gradients, update s.caches c (s.values v :: s.caches c)⟩ t :=
          ⟨hagree.values, hagree.gradients⟩
        obtain ⟨t', hrun', hagree', hcaches, hrows⟩ :=
          ih hrest hpops hssa' huses' hdefined' honce' hiv' hnext
        refine ⟨t', ?_, hagree', hcaches, fun c' hc' v' hv' => ?_⟩
        · have hlower : LoopOp.lowerPush iv buffers (.push c v : BlockOp α) = none := if_neg hbuffer
          rw [filterMap_cons_none hlower]
          exact hrun'
        · rcases mem_cons.mp hv' with heq | hv'
          · exact absurd ((Prod.mk.inj heq).1 ▸ hc') hbuffer
          · exact hrows c' hc' v' hv'

/-! ### The forward loop -/

namespace LoopOp

/-- No cache belongs to two entries. -/
structure Entries (caches : List CachedValue) : Prop where
  nodup : (caches.map fun e => e.1.cache).Nodup
  cache_mem : ∀ e ∈ caches, e.1.cache ∈ e.1.members
  unique : ∀ e ∈ caches, ∀ e' ∈ caches, ∀ c ∈ e.1.members, c ∈ e'.1.members → e = e'

theorem Entries.cache_inj {caches : List CachedValue} (h : Entries caches) {e e' : CachedValue}
    (he : e ∈ caches) (he' : e' ∈ caches) (heq : e.1.cache = e'.1.cache) : e = e' :=
  inj_on_of_nodup_map h.nodup he he' heq

/-- The entries for the pushes of a loop: each lists the caches that one value is pushed to. -/
structure CachesOf (op : LoopOp α) (caches : List CachedValue) : Prop extends Entries caches where
  mem_pushes : ∀ c v, (c, v) ∈ pushes op.body ↔ ∃ e ∈ caches, c ∈ e.1.members ∧ e.2 = v

variable {op : LoopOp α} {info : LoopInfo} {iv : Option Value} {inside hoisted : List CachedValue}
  {numRows n k : Nat} {s : State α} {low : Nat → List α} {p q : List α × State α}
  {pushed : CachedValue → List α} {buffer : CachedValue → α}

/-- The loop and the one with buffers on entering iteration `k`, with what was pushed so far, newest
first, and the buffers. -/
structure Buffers (op : LoopOp α) (inside hoisted : List CachedValue) (numRows k : Nat)
    (s : State α) (low : Nat → List α) (p q : List α × State α) (pushed : CachedValue → List α)
    (buffer : CachedValue → α) : Prop where
  carried : q.1 = p.1 ++ inside.map buffer
  length : p.1.length = op.args.length
  agree : AgreeOff p.2 q.2
  constant : p.2.values = s.values
  lowered : q.2.caches = low
  pushed_length : ∀ e, (pushed e).length = k
  contents : ∀ e ∈ inside ++ hoisted, ∀ c ∈ e.1.members, p.2.caches c = pushed e ++ s.caches c
  others : ∀ c, (∀ e ∈ inside ++ hoisted, c ∉ e.1.members) → p.2.caches c = s.caches c
  rows_length : ∀ e ∈ inside, (rows (buffer e)).length = numRows
  rows_take : ∀ e ∈ inside, (rows (buffer e)).take k = (pushed e).reverse
  hoisted : ∀ e ∈ hoisted, pushed e = List.replicate k (s.values e.2)

namespace Buffers

section

variable (info : LoopInfo) (iv : Option Value) (h : Buffers op inside hoisted numRows k s low p q pushed buffer)

include h

theorem enter_agree : AgreeOff (op.enter p) ((op.lowerCaches info iv inside hoisted).op.enter q) where
  values x hx := by
    change assign q.2.values (op.args ++ (inside.map fun e => e.1.cache).map .cacheArg) q.1 x =
      assign p.2.values op.args p.1 x
    rw [h.carried, assign_append h.length.symm, assign_of_notMem]
    · exact assign_congr_at (h.agree.values x hx) _ _
    · intro hin
      obtain ⟨c, -, rfl⟩ := mem_map.mp hin
      exact hx rfl
  gradients := h.agree.gradients

theorem enter_buffer (hcaches : op.CachesOf (inside ++ hoisted)) {e : CachedValue} (he : e ∈ inside) :
    ((op.lowerCaches info iv inside hoisted).op.enter q).values (.cacheArg e.1.cache) = buffer e := by
  change assign q.2.values (op.args ++ (inside.map fun e => e.1.cache).map .cacheArg) q.1 _ = _
  rw [h.carried, assign_append h.length.symm, List.map_map]
  refine assign_map (Value.cacheArg ∘ fun e : CachedValue => e.1.cache) buffer he
    (fun e' he' heq => ?_) _
  exact hcaches.toEntries.cache_inj (mem_append_left _ he') (mem_append_left _ he)
    (Value.cacheArg.inj heq)

theorem test_eq (hover : op.Over fun x => ¬x.IsCache) : (op.lowerCaches info iv inside hoisted).op.test q = op.test p :=
  congrArg op.cond ((h.enter_agree info iv).map_operands hover.condUses)

theorem iteration (hwf : op.WellFormed) (hover : op.Over fun x => ¬x.IsCache) (hpops : pops op.body = [])
    (honce : ((pushes op.body).map Prod.fst).Nodup) (hcaches : op.CachesOf (inside ++ hoisted))
    (houtside : ∀ e ∈ hoisted, e.2 ∉ op.args ∧ e.2 ∉ definedIn op.body)
    (hiv : ∀ i ∈ iv, i ∉ definedIn op.body ∧ ¬i.IsCache)
    (hindex : ∀ e ∈ inside, rowIndex numRows (toInt (startIndex iv (op.enter p))) = k ∧ k < numRows)
    {p' : List α × State α} (hstep : op.iteration p = some p') :
    ∃ q' pushed' buffer', (op.lowerCaches info iv inside hoisted).op.iteration q = some q' ∧
      Buffers op inside hoisted numRows (k + 1) s low p' q' pushed' buffer' := by
  obtain ⟨s₁, hrun, rfl⟩ := map_eq_some_iff.mp hstep
  obtain ⟨t₁, hrun', hagree, hlowered, hrows⟩ :=
    lowerPush_run iv (inside.map fun e => e.1.cache) hrun hpops hwf.ssa hover.uses hover.definedIn
      honce hiv (h.enter_agree info iv)
  have hpush : ∀ e ∈ inside ++ hoisted, ∀ c ∈ e.1.members, (c, e.2) ∈ pushes op.body :=
    fun e he c hc => (hcaches.mem_pushes c e.2).mpr ⟨e, he, hc, rfl⟩
  have hrow : ∀ e ∈ inside, rows (t₁.values (.updated e.1.cache)) = (rows (buffer e)).set k (s₁.values e.2) := by
    intro e he
    have hin := mem_append_left hoisted he
    rw [hrows _ (mem_map_of_mem he) e.2 (hpush e hin _ (hcaches.cache_mem e hin)),
      h.enter_buffer info iv hcaches he, updateRow, rows_ofRows, h.rows_length e he]
    have hsame : startIndex iv ((op.lowerCaches info iv inside hoisted).op.enter q) = startIndex iv (op.enter p) := by
      cases iv with
      | none => rfl
      | some i => exact (h.enter_agree info (some i)).values i (hiv i rfl).2
    rw [hsame, (hindex e he).1]
  refine ⟨_, fun e => s₁.values e.2 :: pushed e, fun e => t₁.values (.updated e.1.cache),
    congrArg (Option.map _) hrun', ?_, ?_, ⟨h.agree.values, hagree.gradients⟩, h.constant,
    hlowered.trans h.lowered, fun e => ?_, fun e he c hc => ?_, fun c hc => ?_, fun e he => ?_,
    fun e he => ?_, fun e he => ?_⟩
  · change (op.returns ++ (inside.map fun e => e.1.cache).map Value.updated).map t₁.values = _
    rw [map_append, hagree.map_operands hover.returns, List.map_map, List.map_map]
    rfl
  · exact (length_map _).trans hwf.returns_length
  · rw [length_cons, h.pushed_length]
  · change s₁.caches c = _
    rw [runBlock_caches_of_mem hrun hpops hwf.ssa honce (hpush e he c hc)]
    exact congrArg _ (h.contents e he c hc)
  · have hnot : c ∉ (pushes op.body).map Prod.fst := by
      intro hin
      obtain ⟨⟨c, v⟩, hmem, rfl⟩ := mem_map.mp hin
      obtain ⟨e, he, hc', -⟩ := (hcaches.mem_pushes c v).mp hmem
      exact hc e he hc'
    exact (runBlock_caches_of_notMem hrun hpops hnot).trans (h.others c hc)
  · rw [hrow e he, length_set, h.rows_length e he]
  · have hk : k < (rows (buffer e)).length := h.rows_length e he ▸ (hindex e he).2
    rw [hrow e he, take_set_succ hk, h.rows_take e he, reverse_cons]
  · have hval : s₁.values e.2 = s.values e.2 := by
      rw [runBlock_values hrun (houtside e he).2, ← h.constant]
      exact assign_of_notMem (houtside e he).1 _ _
    rw [h.hoisted e he, hval, replicate_succ]

end

end Buffers

theorem lowerCaches_before (op : LoopOp α) (iv : Option Value)
    (hnodup : ((inside ++ hoisted).map fun e => e.1.cache).Nodup)
    (hiters : inside ≠ [] → info.numIters = some (numRows : Int)) (s : State α) :
    ∃ t, runBlock (op.lowerCaches info iv inside hoisted).before s = some t ∧ AgreeOff s t ∧
      (∀ e ∈ inside, t.values (.dummy e.1.cache) = ofRows (replicate numRows 0)) ∧
      (∀ e ∈ hoisted, t.caches e.1.cache = s.values e.2 :: s.caches e.1.cache) ∧
      ∀ c, c ∉ hoisted.map (fun e => e.1.cache) → t.caches c = s.caches c := by
  rw [map_append] at hnodup
  obtain ⟨caches, hpush, hpushed, hkept⟩ := runBlock_pushes (fun e : CachedValue => e.1.cache)
    (fun e => e.2) hnodup.of_append_right s
  have hdummies : ∃ t, runBlock ((if inside ≠ [] ∧ info.numIters = none then [info.getNumIters]
      else []) ++ (inside.map fun e => e.1.cache).map (initValue info))
        (⟨s.values, s.gradients, caches⟩ : State α) = some t ∧ AgreeOff s t ∧ t.caches = caches ∧
      ∀ e ∈ inside, t.values (.dummy e.1.cache) = ofRows (replicate numRows 0) := by
    by_cases hinside : inside = []
    · obtain rfl := hinside
      exact ⟨_, rfl, ⟨fun _ _ => rfl, rfl⟩, rfl, nofun⟩
    · have hsome := hiters hinside
      obtain ⟨t, hrun, hgradients, hcaches, hread, hvals⟩ := runBlock_dummies
        (ofRows (replicate numRows (0 : α))) (inside.map fun e => e.1.cache)
        ⟨s.values, s.gradients, caches⟩
      refine ⟨t, ?_, ⟨fun x hx => hvals x fun c heq => hx (heq ▸ rfl), hgradients⟩, hcaches,
        fun e he => hread _ (mem_map_of_mem he)⟩
      have hnone : ¬(inside ≠ [] ∧ info.numIters = none) := by
        rw [hsome]
        exact fun h => some_ne_none _ h.2
      have hinit : initValue (α := α) info = fun c => .pure (.dummy c) [] fun _ =>
          ofRows (replicate numRows 0) := by
        funext c
        simp only [initValue, hsome, Int.toNat_natCast]
      rw [if_neg hnone, nil_append, hinit]
      exact hrun
  obtain ⟨t, hrun, hagree, hcaches, hread⟩ := hdummies
  refine ⟨t, ?_, hagree, hread, fun e he => ?_, fun c hc => ?_⟩
  · change runBlock (_ ++ _ ++ _) s = _
    rw [append_assoc, runBlock_append, hpush, bind_some]
    exact hrun
  · rw [hcaches]
    exact hpushed e he
  · rw [hcaches]
    exact hkept c hc

/-- What a run of the forward loop leaves in the caches, and what the one with buffers does: `n`
values for each entry, and one buffer or one value. -/
structure Handed (inside hoisted : List CachedValue) (numRows n : Nat) (s s' t' : State α)
    (pushed : CachedValue → List α) : Prop where
  pushed_length : ∀ e, (pushed e).length = n
  contents : ∀ e ∈ inside ++ hoisted, ∀ c ∈ e.1.members, s'.caches c = pushed e ++ s.caches c
  others : ∀ c, (∀ e ∈ inside ++ hoisted, c ∉ e.1.members) → s'.caches c = s.caches c
  held : ∀ e ∈ inside, ∃ b, t'.caches e.1.cache = b :: s.caches e.1.cache ∧
    (rows b).length = numRows ∧ (rows b).take n = (pushed e).reverse
  heldOutside : ∀ e ∈ hoisted, ∃ a, t'.caches e.1.cache = a :: s.caches e.1.cache ∧ pushed e = List.replicate n a
  lowered : ∀ c, c ∉ (inside ++ hoisted).map (fun e => e.1.cache) → t'.caches c = s.caches c

theorem lowerCaches_exec (hwf : op.WellFormed) (hover : op.Over fun x => ¬x.IsCache) (hpops : pops op.body = [])
    (honce : ((pushes op.body).map Prod.fst).Nodup) (hcaches : op.CachesOf (inside ++ hoisted))
    (houtside : ∀ e ∈ hoisted, e.2 ∉ op.args ∧ e.2 ∉ definedIn op.body)
    (hiv : ∀ i ∈ iv, i ∉ definedIn op.body ∧ ¬i.IsCache) (hiters : inside ≠ [] → info.numIters = some (numRows : Int))
    (hindex : inside ≠ [] → ∀ k < n, ∀ p, Loop.enters op.test op.iteration k (op.operands.map s.values, s) = some p →
        rowIndex numRows (toInt (startIndex iv (op.enter p))) = k ∧ k < numRows) (h : op.exec n s = some s') :
    ∃ t' pushed, (op.lowerCaches info iv inside hoisted).exec n s = some t' ∧ AgreeOff s' t' ∧
      Handed inside hoisted numRows n s s' t' pushed := by
  obtain ⟨t₀, hbefore, hagree₀, hdummies, hpushed₀, hkept₀⟩ :=
    lowerCaches_before op iv hcaches.nodup hiters s
  obtain ⟨p, hsteps, rfl⟩ := map_eq_some_iff.mp h
  have hstart : Buffers op inside hoisted numRows 0 s t₀.caches (op.operands.map s.values, s)
      ((op.lowerCaches info iv inside hoisted).op.operands.map t₀.values, t₀) (fun _ => [])
      fun _ => ofRows (replicate numRows 0) := by
    refine ⟨?_, (length_map _).trans hwf.operands_length, hagree₀, rfl, rfl, fun _ => rfl,
      fun _ _ _ _ => rfl, fun _ _ => rfl, fun _ _ => ?_, fun _ _ => rfl, fun _ _ => rfl⟩
    · change (op.operands ++ (inside.map fun e => e.1.cache).map Value.dummy).map t₀.values = _
      rw [map_append, hagree₀.map_operands hover.operands, List.map_map, List.map_map]
      exact congrArg _ (map_congr_left hdummies)
    · rw [rows_ofRows, length_replicate]
  have htest : ∀ k p q, k ≤ n → (Loop.enters op.test op.iteration k (op.operands.map s.values, s) =
      some p ∧ ∃ pushed buffer, Buffers op inside hoisted numRows k s t₀.caches p q pushed buffer) →
      (op.lowerCaches info iv inside hoisted).op.test q = op.test p := by
    intro k p q _ hR
    obtain ⟨-, _, _, hR⟩ := hR
    exact hR.test_eq info iv hover
  have hstep : ∀ k p q p', k < n → (Loop.enters op.test op.iteration k (op.operands.map s.values, s) = some p ∧
        ∃ pushed buffer, Buffers op inside hoisted numRows k s t₀.caches p q pushed buffer) →
      op.test p = true → op.iteration p = some p' →
      ∃ q', (op.lowerCaches info iv inside hoisted).op.iteration q = some q' ∧
        Loop.enters op.test op.iteration (k + 1) (op.operands.map s.values, s) = some p' ∧
        ∃ pushed buffer, Buffers op inside hoisted numRows (k + 1) s t₀.caches p' q' pushed buffer := by
    intro k p q p' hk hR htest hit
    obtain ⟨henters, _, _, hR⟩ := hR
    obtain ⟨q', pushed', buffer', hit', hR'⟩ := hR.iteration info iv hwf hover hpops honce hcaches
      houtside hiv (fun e he => hindex (ne_nil_of_mem he) k hk p henters) hit
    refine ⟨q', hit', Loop.enters_append henters ?_, pushed', buffer', hR'⟩
    exact Loop.enters_succ_eq_some.mpr ⟨p', htest, hit, rfl⟩
  obtain ⟨q, hsteps', -, pushed, buffer, hend⟩ := Loop.steps_simulates
    (R := fun k p q => Loop.enters op.test op.iteration k (op.operands.map s.values, s) = some p ∧
      ∃ pushed buffer, Buffers op inside hoisted numRows k s t₀.caches p q pushed buffer)
    htest hstep ⟨rfl, _, _, hstart⟩ hsteps
  have hlen : op.results.length = p.1.length := hwf.results_length.trans hend.length.symm
  have hnodup := hcaches.nodup
  rw [map_append] at hnodup
  obtain ⟨caches, hafter, hpushed, hkept⟩ := runBlock_pushes id Value.cache
    (l := inside.map fun e => e.1.cache) (by rw [List.map_id]; exact hnodup.of_append_left)
    (q.2.withValues (assign q.2.values (op.results ++ (inside.map fun e => e.1.cache).map Value.cache) q.1))
  rw [List.map_id] at hkept
  have hres : ∀ e ∈ inside, assign q.2.values
      (op.results ++ (inside.map fun e => e.1.cache).map Value.cache) q.1 (.cache e.1.cache) = buffer e := by
    intro e he
    rw [hend.carried, assign_append hlen, List.map_map]
    refine assign_map (Value.cache ∘ fun e : CachedValue => e.1.cache) buffer he
      (fun e' he' heq => ?_) _
    exact hcaches.toEntries.cache_inj (mem_append_left _ he') (mem_append_left _ he)
      (Value.cache.inj heq)
  refine ⟨⟨assign q.2.values (op.results ++ (inside.map fun e => e.1.cache).map Value.cache) q.1,
    q.2.gradients, caches⟩, pushed, ?_, ⟨fun x hx => ?_, hend.agree.gradients⟩, ⟨hend.pushed_length,
    hend.contents, hend.others, fun e he => ⟨buffer e, ?_, hend.rows_length e he,
      hend.rows_take e he⟩, fun e he => ⟨s.values e.2, ?_, hend.hoisted e he⟩, fun c hc => ?_⟩⟩
  · rw [RewrittenLoop.exec, hbefore, bind_some, exec, hsteps', map_some, bind_some]
    exact hafter
  · change assign q.2.values (op.results ++ (inside.map fun e => e.1.cache).map .cache) q.1 x = _
    rw [hend.carried, assign_append hlen, assign_of_notMem]
    · exact assign_congr_at (hend.agree.values x hx) _ _
    · intro hin
      obtain ⟨c, -, rfl⟩ := List.mem_map.mp hin
      exact hx rfl
  · have hin : e.1.cache ∉ hoisted.map fun e => e.1.cache :=
      (nodup_append'.mp hnodup).2.2 (List.mem_map_of_mem he)
    have hread := hpushed e.1.cache (List.mem_map_of_mem he)
    exact hread.trans (congrArg₂ List.cons (hres e he) ((congrFun hend.lowered _).trans (hkept₀ _ hin)))
  · have hin : e.1.cache ∉ inside.map fun e => e.1.cache := fun hin =>
      (nodup_append'.mp hnodup).2.2 hin (List.mem_map_of_mem he)
    exact (hkept _ hin).trans ((congrFun hend.lowered _).trans (hpushed₀ e he))
  · rw [map_append, mem_append, not_or] at hc
    exact (hkept c hc.1).trans ((congrFun hend.lowered c).trans (hkept₀ c hc.2))

end LoopOp

end

end EnzymeJax
