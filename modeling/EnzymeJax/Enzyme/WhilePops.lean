import EnzymeJax.Enzyme.WhileCaches
import Mathlib.Data.List.GetD

/-!
# Pops as reads of a carried tensor

In iteration `j` the reverse loop pops what iteration `n - 1 - j` of the forward loop pushed. The
lowered loop reads it from the row its counter selects, or the one value from outside.
-/

namespace EnzymeJax

open Contents List Option Function

variable {α : Type*} [Contents α]

/-! ### The body of the reverse loop -/

/-- What a pop of a cache is replaced by, if it is. -/
def readBack (inside hoisted : List CachedValue) (values : Value → α) (c : Nat) : Option α :=
  match hoisted.find? (c ∈ ·.1.members) with
  | some e => some (values (.cache e.1.cache))
  | none =>
    (inside.find? (c ∈ ·.1.members)).map fun e =>
      sliceRow (values (.cache e.1.cache)) (values .counter)

variable {values : Value → α} {t s s' : State α} {c : Nat}

section

variable {P : Value → Prop} {inside hoisted : List CachedValue}

theorem readBack_congr (inside hoisted : List CachedValue) {values' : Value → α}
    (h : ∀ x : Value, x.IsCache → values' x = values x) (c : Nat) :
    readBack inside hoisted values' c = readBack inside hoisted values c := by
  rw [readBack, readBack]
  cases hoisted.find? (c ∈ ·.1.members) with
  | some e => exact congrArg some (h _ rfl)
  | none =>
    cases inside.find? (c ∈ ·.1.members) with
    | some e => exact congrArg some (congrArg₂ sliceRow (h _ rfl) (h _ rfl))
    | none => rfl

theorem exec_lowerPop {a : α} (h : readBack inside hoisted t.values c = some a) (x : Value) :
    (LoopOp.lowerPop inside hoisted (.pop x c)).exec t = some ⟨update t.values x a, t.gradients, t.caches⟩ := by
  rw [readBack] at h
  cases hfind : hoisted.find? (c ∈ ·.1.members) with
  | some e =>
    rw [hfind] at h
    cases h
    simp only [LoopOp.lowerPop, hfind]
    rfl
  | none =>
    rw [hfind] at h
    obtain ⟨e, hfind', rfl⟩ := map_eq_some_iff.mp h
    simp only [LoopOp.lowerPop, hfind, hfind']
    rfl

theorem lowerPop_eq (h : readBack inside hoisted values c = none) (x : Value) :
    LoopOp.lowerPop inside hoisted (.pop x c : BlockOp α) = .pop x c := by
  rw [readBack] at h
  cases hfind : hoisted.find? (c ∈ ·.1.members) with
  | some e =>
    rw [hfind] at h
    cases h
  | none =>
    rw [hfind] at h
    simp only [LoopOp.lowerPop, hfind, map_eq_none_iff.mp h]

/-- A block reads what it would pop, as long as the two agree. -/
theorem lowerPop_run {ops : List (BlockOp α)} (hrun : runBlock ops s = some s') (hpushes : pushes ops = [])
    (hP : ∀ x, P x → ¬x.IsCache) (huses : ∀ o ∈ ops, ∀ x ∈ o.operands, P x)
    (hdefined : ∀ x ∈ definedIn ops, P x) (honce : ((pops ops).map Prod.fst).Nodup) (hagree : AgreeOn P s t)
    (hread : ∀ c ∈ (pops ops).map Prod.fst, ∀ a, readBack inside hoisted t.values c = some a →
      ∃ rest, s.caches c = a :: rest)
    (hothers : ∀ c, readBack inside hoisted t.values c = none → t.caches c = s.caches c) :
    ∃ t', runBlock (ops.map (LoopOp.lowerPop inside hoisted)) t = some t' ∧ AgreeOn P s' t' ∧
      (∀ x : Value, x.IsCache → t'.values x = t.values x) ∧
      (∀ c, readBack inside hoisted t.values c = none → t'.caches c = s'.caches c) ∧
      ∀ c a, readBack inside hoisted t.values c = some a → t'.caches c = t.caches c := by
  induction ops generalizing s t with
  | nil =>
    cases hrun
    exact ⟨t, rfl, hagree, fun _ _ => rfl, hothers, fun _ _ _ => rfl⟩
  | cons op ops ih =>
    obtain ⟨s₁, hexec, hrest⟩ := runBlock_cons_eq_some.mp hrun
    obtain ⟨huses₁, huses'⟩ := forall_mem_cons.mp huses
    have hdefined' : ∀ x ∈ definedIn ops, P x :=
      fun x hx => hdefined x (mem_definedIn_cons.mpr (.inr hx))
    have hkept : ∀ result, op.results = [result] → ∀ a, ∀ x : Value, x.IsCache →
        update t.values result a x = t.values x := by
      intro result hop a x hx
      have hne : x ≠ result := fun heq =>
        hP result (hdefined result (mem_definedIn_cons.mpr (.inl (hop ▸ mem_cons_self))))
          (heq ▸ hx)
      exact update_of_ne hne ..
    have hsub : ∀ c ∈ (pops ops).map Prod.fst, c ∈ (pops (op :: ops)).map Prod.fst := by
      intro c hc
      obtain ⟨q, hq, rfl⟩ := mem_map.mp hc
      exact mem_map.mpr ⟨q, mem_pops.mpr (mem_cons_of_mem _ (mem_pops.mp hq)), rfl⟩
    -- The rest of the block, from a state where the caches still popped are as before.
    have hnext : ∀ t₁, (LoopOp.lowerPop inside hoisted op).exec t = some t₁ → AgreeOn P s₁ t₁ →
        (∀ x : Value, x.IsCache → t₁.values x = t.values x) → pushes ops = [] →
        ((pops ops).map Prod.fst).Nodup → (∀ c ∈ (pops ops).map Prod.fst, s₁.caches c = s.caches c) →
        (∀ c, readBack inside hoisted t.values c = none → t₁.caches c = s₁.caches c) →
        (∀ c a, readBack inside hoisted t.values c = some a → t₁.caches c = t.caches c) →
        ∃ t', runBlock ((op :: ops).map (LoopOp.lowerPop inside hoisted)) t = some t' ∧
          AgreeOn P s' t' ∧ (∀ x : Value, x.IsCache → t'.values x = t.values x) ∧
          (∀ c, readBack inside hoisted t.values c = none → t'.caches c = s'.caches c) ∧
          ∀ c a, readBack inside hoisted t.values c = some a → t'.caches c = t.caches c := by
      intro t₁ hexec₁ hagree₁ hvalues₁ hpushes₁ honce₁ hcaches₁ hothers₁ hsame₁
      have hback := readBack_congr inside hoisted hvalues₁
      obtain ⟨t', hrun', hagree', hvalues', hothers', hsame'⟩ :=
        ih hrest hpushes₁ huses' hdefined' honce₁ hagree₁
          (fun c hc a ha => by
            rw [hcaches₁ c hc]
            exact hread c (hsub c hc) a ((hback c).symm.trans ha))
          (fun c hc => hothers₁ c ((hback c).symm.trans hc))
      refine ⟨t', runBlock_cons_eq_some.mpr ⟨t₁, hexec₁, hrun'⟩, hagree',
        fun x hx => (hvalues' x hx).trans (hvalues₁ x hx),
        fun c hc => hothers' c ((hback c).trans hc), fun c a ha => ?_⟩
      exact (hsame' c a ((hback c).trans ha)).trans (hsame₁ c a ha)
    cases op with
    | push c v => cases hpushes
    | pure result operands fn =>
      cases hexec
      have hops : operands.map t.values = operands.map s.values :=
        hagree.map_operands huses₁
      refine hnext ⟨update t.values result (fn (operands.map s.values)), t.gradients,
        t.caches⟩ ?_ (hagree.update result _ _ _) (hkept result rfl _) hpushes honce
        (fun _ _ => rfl) hothers (fun _ _ _ => rfl)
      exact congrArg (fun l => some (⟨update t.values result (fn l), t.gradients, t.caches⟩ : State α)) hops
    | get result g =>
      cases hexec
      refine hnext ⟨update t.values result (s.gradients g), t.gradients, t.caches⟩ ?_
        (hagree.update result _ _ _) (hkept result rfl _) hpushes honce (fun _ _ => rfl) hothers
        (fun _ _ _ => rfl)
      exact congrArg (fun a => some (⟨update t.values result a, t.gradients,
        t.caches⟩ : State α)) (congrFun hagree.gradients g)
    | set g v =>
      cases hexec
      have hval := hagree.values v (huses₁ v mem_cons_self)
      refine hnext ⟨t.values, update t.gradients g (t.values v), t.caches⟩ rfl
        ⟨hagree.values, ?_⟩ (fun _ _ => rfl) hpushes honce (fun _ _ => rfl) hothers
        (fun _ _ _ => rfl)
      rw [hagree.gradients, hval]
    | pop x c =>
      obtain ⟨hc, honce'⟩ := nodup_cons.mp honce
      rw [BlockOp.exec] at hexec
      split at hexec
      · cases hexec
      · rename_i a rest hcache
        cases hexec
        have hpopped : ∀ c' ∈ (pops ops).map Prod.fst, update s.caches c rest c' = s.caches c' := by
          intro c' hc'
          have hne : c' ≠ c := fun heq => hc (heq ▸ hc')
          exact update_of_ne hne ..
        cases hback : readBack inside hoisted t.values c with
        | some a' =>
          obtain ⟨rest', heq⟩ := hread c mem_cons_self a' hback
          obtain ⟨rfl, rfl⟩ := cons.inj (hcache.symm.trans heq)
          refine hnext _ (exec_lowerPop hback x) (hagree.update x a _ _) (hkept x rfl a) hpushes
            honce' hpopped (fun c' hc' => ?_) (fun _ _ _ => rfl)
          have hne : c' ≠ c := fun heq => by
            rw [heq, hback] at hc'
            cases hc'
          exact (hothers c' hc').trans (update_of_ne hne ..).symm
        | none =>
          have hcache' : t.caches c = a :: rest := (hothers c hback).trans hcache
          refine hnext ⟨update t.values x a, t.gradients, update t.caches c rest⟩ ?_
            (hagree.update x a _ _) (hkept x rfl a) hpushes honce' hpopped (fun c' hc' => ?_)
            (fun c' a' ha' => ?_)
          · rw [lowerPop_eq hback, BlockOp.exec, hcache']
          · by_cases heq : c' = c
            · simp only [heq, update_self]
            · simp only [update_of_ne heq]
              exact hothers c' hc'
          · have hne : c' ≠ c := fun heq => by
              rw [heq, hback] at ha'
              cases ha'
            exact update_of_ne hne ..

omit [Contents α] in
theorem runBlock_pops {ops : List (BlockOp α)} (hrun : runBlock ops s = some s') (hpushes : pushes ops = [])
    (hssa : Ssa ops) (honce : ((pops ops).map Prod.fst).Nodup) :
    (∀ c ∈ (pops ops).map Prod.fst, ∃ a, s.caches c = a :: s'.caches c) ∧
      ∀ c, c ∉ (pops ops).map Prod.fst → s'.caches c = s.caches c := by
  obtain ⟨p, hp, -, hpopped, hkept, -⟩ := exists_runBlock_erasePops hrun hpushes hssa honce
  have hcaches : ∀ c, s'.caches c = p.caches c := by
    intro c
    refine runBlock_caches_of_notMem hp (pops_erasePops ops) ?_
    rw [pushes_erasePops hpushes]
    exact not_mem_nil
  refine ⟨fun c hc => ?_, fun c hc => (hcaches c).trans (hkept c hc)⟩
  obtain ⟨⟨c, x⟩, hx, rfl⟩ := mem_map.mp hc
  exact ⟨p.values x, hcaches c ▸ hpopped c x hx⟩

end

/-! ### Before the reverse loop -/

omit [Contents α] in
theorem popsBefore_run (content : CachedValue → α) (base : Nat → List α) {l : List CachedValue}
    (hnodup : (l.map fun e => e.1.cache).Nodup) (hcaches : ∀ e ∈ l, t.caches e.1.cache = content e :: base e.1.cache) :
    ∃ t', runBlock (l.map fun e => .pop (.cache e.1.cache) e.1.cache) t = some t' ∧
      t'.gradients = t.gradients ∧ (∀ e ∈ l, t'.values (.cache e.1.cache) = content e) ∧
      (∀ e ∈ l, t'.caches e.1.cache = base e.1.cache) ∧
      (∀ c, c ∉ l.map (fun e => e.1.cache) → t'.caches c = t.caches c) ∧
      ∀ x, (∀ e ∈ l, x ≠ .cache e.1.cache) → t'.values x = t.values x := by
  induction l generalizing t with
  | nil => exact ⟨t, rfl, rfl, nofun, nofun, fun _ _ => rfl, fun _ _ => rfl⟩
  | cons e l ih =>
    obtain ⟨he, hnodup'⟩ := nodup_cons.mp hnodup
    obtain ⟨hcache, hcaches'⟩ := forall_mem_cons.mp hcaches
    have hne : ∀ e' ∈ l, e'.1.cache ≠ e.1.cache :=
      fun e' he' heq => he (mem_map.mpr ⟨e', he', heq⟩)
    obtain ⟨t', hrun, hgradients, hread, hbase, hkept, hvals⟩ := ih hnodup'
      (t := ⟨update t.values (.cache e.1.cache) (content e), t.gradients,
        update t.caches e.1.cache (base e.1.cache)⟩) (fun e' he' =>
          (update_of_ne (hne e' he') ..).trans (hcaches' e' he'))
    have hself : t'.values (.cache e.1.cache) = content e := by
      rw [hvals _ fun e' he' heq => hne e' he' (Value.cache.inj heq).symm]
      exact update_self ..
    refine ⟨t', ?_, hgradients, forall_mem_cons.mpr ⟨hself, hread⟩,
      forall_mem_cons.mpr ⟨?_, hbase⟩, fun c hc => ?_, fun x hx => ?_⟩
    · rw [map_cons, runBlock, BlockOp.exec, hcache]
      exact hrun
    · rw [hkept _ he]
      exact update_self ..
    · obtain ⟨hself, hrest⟩ := not_or.mp (mt mem_cons.mpr hc)
      rw [hkept c hrest]
      exact update_of_ne hself ..
    · rw [hvals x fun e' he' => hx e' (mem_cons_of_mem _ he')]
      exact update_of_ne (hx e mem_cons_self) ..

/-- What the reverse loop counts down from. -/
def LoopInfo.countFrom (info : LoopInfo) (s : State α) : Int :=
  if info.isConstant then info.numIters.getD 0 - 1 else toInt (s.values info.limit) - 1

theorem counterStart_run (info : LoopInfo) (t : State α) :
    ∃ t', runBlock (LoopOp.counterStart info) t = some t' ∧ t'.gradients = t.gradients ∧
      t'.caches = t.caches ∧ t'.values .counterStart = ofInt (info.countFrom t) ∧
      ∀ x, x ≠ .counterStart → x ≠ .numIters → t'.values x = t.values x := by
  rw [LoopOp.counterStart, LoopInfo.countFrom]
  by_cases hconstant : info.isConstant = true
  · rw [if_pos hconstant, if_pos hconstant]
    refine ⟨_, rfl, rfl, rfl, ?_, fun x hx _ => ?_⟩
    · simp only [update_self]
    · simp only [update_of_ne hx]
  · rw [if_neg hconstant, if_neg hconstant]
    refine ⟨_, rfl, rfl, rfl, ?_, fun x hx hx' => ?_⟩
    · simp
    · simp only [update_of_ne hx, update_of_ne hx']

/-! ### The reverse loop -/

namespace LoopOp

variable {P : Value → Prop} {op : LoopOp α} {info : LoopInfo} {counts : Bool} {inside hoisted : List CachedValue}
  {numRows n j : Nat} {start : Int} {held : Value → α} {base : Nat → List α}
  {pushed : CachedValue → List α} {p q : List α × State α}

section

variable (op : LoopOp α) (info : LoopInfo) (counts : Bool) (inside hoisted : List CachedValue)

theorem lowerPops_args : (op.lowerPops info counts inside hoisted).op.args =
      op.args ++ if counts then [.counter] else [] := by
  cases counts with
  | true => rfl
  | false => exact (append_nil _).symm

theorem lowerPops_operands : (op.lowerPops info counts inside hoisted).op.operands =
      op.operands ++ if counts then [.counterStart] else [] := by
  cases counts with
  | true => rfl
  | false => exact (append_nil _).symm

theorem lowerPops_returns : (op.lowerPops info counts inside hoisted).op.returns =
      op.returns ++ if counts then [.nextCounter] else [] := by
  cases counts with
  | true => rfl
  | false => exact (append_nil _).symm

theorem lowerPops_results : (op.lowerPops info counts inside hoisted).op.results =
      op.results ++ if counts then [.counter] else [] := by
  cases counts with
  | true => rfl
  | false => exact (append_nil _).symm

theorem lowerPops_body : (op.lowerPops info counts inside hoisted).op.body =
      op.body.map (lowerPop inside hoisted) ++
        if counts then [.pure .nextCounter [.counter] fun l => ofInt (toInt (l.headD 0) - 1)]
        else [] := by
  cases counts with
  | true => rfl
  | false => exact (append_nil _).symm

theorem lowerPops_test (q : List α × State α) : (op.lowerPops info counts inside hoisted).op.test q =
      op.cond (op.condUses.map ((op.lowerPops info counts inside hoisted).op.enter q).values) := by
  cases counts with
  | true | false => rfl

end

/-- What the lowered reverse loop holds for each entry: a buffer whose first rows are the values
pushed, oldest first, or the one value. -/
structure Holds (inside hoisted : List CachedValue) (numRows n : Nat) (held : Value → α)
    (pushed : CachedValue → List α) : Prop where
  length : ∀ e, (pushed e).length = n
  rows_length : ∀ e ∈ inside, (rows (held (.cache e.1.cache))).length = numRows
  rows_take : ∀ e ∈ inside, (rows (held (.cache e.1.cache))).take n = (pushed e).reverse
  outside : ∀ e ∈ hoisted, pushed e = List.replicate n (held (.cache e.1.cache))

/-- The reverse loop and its lowering on entering iteration `j`: `j` values of each entry have been
popped. -/
structure Popping (P : Value → Prop) (op : LoopOp α) (counts : Bool) (inside hoisted : List CachedValue) (j : Nat)
    (start : Int) (held : Value → α) (base : Nat → List α) (pushed : CachedValue → List α)
    (p q : List α × State α) : Prop where
  carried : q.1 = p.1 ++ if counts then [ofInt (start - j)] else []
  length : p.1.length = op.args.length
  agree : AgreeOn P p.2 q.2
  holds : ∀ x : Value, x.IsCache → q.2.values x = held x
  contents : ∀ e ∈ inside ++ hoisted, ∀ c ∈ e.1.members, p.2.caches c = (pushed e).drop j ++ base c
  lowered : ∀ e ∈ inside ++ hoisted, ∀ c ∈ e.1.members, q.2.caches c = base c
  others : ∀ c, (∀ e ∈ inside ++ hoisted, c ∉ e.1.members) → q.2.caches c = p.2.caches c

namespace Popping

section

variable (info : LoopInfo) (h : Popping P op counts inside hoisted j start held base pushed p q)
  (hP : ∀ x, P x → ¬x.IsCache)

include h hP

theorem enter_agree : AgreeOn P (op.enter p) ((op.lowerPops info counts inside hoisted).op.enter q) where
  values x hx := by
    rw [enter, lowerPops_args, h.carried]
    change assign _ _ _ x = assign _ _ _ x
    rw [assign_append h.length.symm, assign_of_notMem]
    · exact assign_congr_at (h.agree.values x hx) _ _
    · cases counts with
      | true => exact fun hin => hP x hx (mem_singleton.mp hin ▸ rfl)
      | false => exact not_mem_nil
  gradients := h.agree.gradients

theorem enter_held (hover : op.Over P) {x : Value} (hx : x.IsCache) (hne : x ≠ .counter) :
    ((op.lowerPops info counts inside hoisted).op.enter q).values x = held x := by
  rw [enter, lowerPops_args, h.carried]
  change assign _ _ _ x = _
  rw [assign_append h.length.symm, assign_of_notMem, assign_of_notMem]
  · exact h.holds x hx
  · exact fun hin => hP x (hover.args x hin) hx
  · cases counts with
    | true => exact fun hin => hne (mem_singleton.mp hin)
    | false => exact not_mem_nil

end

theorem enter_counter (info : LoopInfo) (h : Popping P op true inside hoisted j start held base pushed p q) :
    ((op.lowerPops info true inside hoisted).op.enter q).values .counter = ofInt (start - j) := by
  rw [enter, lowerPops_args, h.carried]
  change assign _ _ _ _ = _
  rw [assign_append h.length.symm]
  simp only [if_true, assign, update_self]

theorem readBack_eq (info : LoopInfo) (h : Popping P op counts inside hoisted j start held base pushed p q)
    (hP : ∀ x, P x → ¬x.IsCache) (hover : op.Over P) (hentries : Entries (inside ++ hoisted))
    (hholds : Holds inside hoisted numRows n held pushed) (hj : j < n) (hcounts : inside ≠ [] → counts = true)
    (hstart : counts = true → start = n - 1) {e : CachedValue} (he : e ∈ inside ++ hoisted) (hc : c ∈ e.1.members) :
    readBack inside hoisted ((op.lowerPops info counts inside hoisted).op.enter q).values c =
      some ((pushed e).getD j 0) := by
  have hsame : ∀ e' ∈ inside ++ hoisted, c ∈ e'.1.members → e' = e :=
    fun e' he' hc' => hentries.unique e' he' e he c hc' hc
  rw [readBack]
  cases hfind : hoisted.find? (c ∈ ·.1.members) with
  | some e' =>
    have hmem := mem_of_find?_eq_some hfind
    obtain rfl := hsame e' (mem_append_right _ hmem) (by simpa using find?_some hfind)
    have hval := h.enter_held info hP hover (x := .cache e'.1.cache) rfl nofun
    refine congrArg some (hval.trans ?_)
    rw [hholds.outside e' hmem]
    simp [hj]
  | none =>
    have hnot : e ∉ hoisted := fun hin =>
      find?_eq_none.mp hfind e hin (decide_eq_true hc)
    have hin : e ∈ inside := (mem_append.mp he).resolve_right hnot
    obtain rfl := hcounts (ne_nil_of_mem hin)
    cases hfind' : inside.find? (c ∈ ·.1.members) with
    | none => exact absurd (decide_eq_true hc) (find?_eq_none.mp hfind' e hin)
    | some e' =>
      have hmem := mem_of_find?_eq_some hfind'
      obtain rfl := hsame e' (mem_append_left _ hmem) (by simpa using find?_some hfind')
      have hval := h.enter_held info hP hover (x := .cache e'.1.cache) rfl nofun
      have hle : n ≤ numRows := by
        have htake := congrArg List.length (hholds.rows_take e' hmem)
        rw [length_take, length_reverse, hholds.length, hholds.rows_length e' hmem] at htake
        omega
      have hrow : rowIndex numRows (start - j) = n - 1 - j := by
        have hstart := hstart rfl
        rw [rowIndex]
        omega
      rw [map_some, hval, h.enter_counter info, sliceRow, toInt_ofInt, hholds.rows_length e' hmem, hrow,
        getD_of_take (hholds.length e') (hholds.rows_take e' hmem) hj]

theorem readBack_eq_none (hc : ∀ e ∈ inside ++ hoisted, c ∉ e.1.members) : readBack inside hoisted values c = none := by
  have hhoisted : hoisted.find? (c ∈ ·.1.members) = none :=
    find?_eq_none.mpr fun e he hin => hc e (mem_append_right _ he) (of_decide_eq_true hin)
  have hinside : inside.find? (c ∈ ·.1.members) = none :=
    find?_eq_none.mpr fun e he hin => hc e (mem_append_left _ he) (of_decide_eq_true hin)
  rw [readBack, hhoisted, hinside]
  rfl

section

variable (info : LoopInfo) (h : Popping P op counts inside hoisted j start held base pushed p q)
  (hwf : op.WellFormed) (hP : ∀ x, P x → ¬x.IsCache) (hover : op.Over P)
  (hpushes : pushes op.body = []) (honce : ((pops op.body).map Prod.fst).Nodup)
  (hentries : Entries (inside ++ hoisted))
  (hpopped : ∀ e ∈ inside ++ hoisted, ∀ c ∈ e.1.members, c ∈ (pops op.body).map Prod.fst)
  (hholds : Holds inside hoisted numRows n held pushed) (hj : j < n)
  (hcounts : inside ≠ [] → counts = true) (hstart : counts = true → start = n - 1)

include h hwf hP hover hpushes honce hentries hpopped hholds hj hcounts hstart

theorem body (hrun : runBlock op.body (op.enter p) = some s) :
    ∃ t, runBlock (op.lowerPops info counts inside hoisted).op.body
        ((op.lowerPops info counts inside hoisted).op.enter q) = some t ∧ AgreeOn P s t ∧
      (counts = true → t.values .nextCounter = ofInt (start - (j + 1 : Nat))) ∧
      (∀ e ∈ inside ++ hoisted, ∀ c ∈ e.1.members,
        s.caches c = (pushed e).drop (j + 1) ++ base c ∧ t.caches c = base c) ∧
      ∀ c, (∀ e ∈ inside ++ hoisted, c ∉ e.1.members) → t.caches c = s.caches c := by
  have hval : ∀ e ∈ inside ++ hoisted, ∀ c ∈ e.1.members,
      p.2.caches c = (pushed e).getD j 0 :: (pushed e).drop (j + 1) ++ base c := by
    intro e he c hc
    have hlen : j < (pushed e).length := (hholds.length e).symm ▸ hj
    rw [h.contents e he c hc, drop_eq_getElem_cons hlen, getD_eq_getElem _ _ hlen]
  have hentry : ∀ c a, readBack inside hoisted
      ((op.lowerPops info counts inside hoisted).op.enter q).values c = some a →
      ∃ e ∈ inside ++ hoisted, c ∈ e.1.members ∧ a = (pushed e).getD j 0 := by
    intro c a ha
    by_cases hmem : ∃ e ∈ inside ++ hoisted, c ∈ e.1.members
    · obtain ⟨e, he, hc⟩ := hmem
      rw [h.readBack_eq info hP hover hentries hholds hj hcounts hstart he hc] at ha
      exact ⟨e, he, hc, (some.inj ha).symm⟩
    · rw [readBack_eq_none fun e he hc => hmem ⟨e, he, hc⟩] at ha
      cases ha
  obtain ⟨t, hrun', hagree, hkept, hothers, hsame⟩ := lowerPop_run hrun hpushes hP hover.uses
    hover.definedIn honce (h.enter_agree info hP) (fun c _ a ha => by
      obtain ⟨e, he, hc, rfl⟩ := hentry c a ha
      exact ⟨_, hval e he c hc⟩)
    (fun c hc => h.others c fun e he hin => by
      rw [h.readBack_eq info hP hover hentries hholds hj hcounts hstart he hin] at hc
      cases hc)
  have hcaches : ∀ e ∈ inside ++ hoisted, ∀ c ∈ e.1.members,
      s.caches c = (pushed e).drop (j + 1) ++ base c ∧ t.caches c = base c := by
    intro e he c hc
    obtain ⟨a, ha⟩ := (runBlock_pops hrun hpushes hwf.ssa honce).1 c (hpopped e he c hc)
    refine ⟨(cons.inj (ha.symm.trans (hval e he c hc))).2, ?_⟩
    rw [hsame c _ (h.readBack_eq info hP hover hentries hholds hj hcounts hstart he hc)]
    exact h.lowered e he c hc
  have hothers' : ∀ c, (∀ e ∈ inside ++ hoisted, c ∉ e.1.members) → t.caches c = s.caches c :=
    fun c hc => hothers c (readBack_eq_none hc)
  rw [lowerPops_body, runBlock_append, hrun', bind_some]
  cases counts with
  | false => exact ⟨t, rfl, hagree, nofun, hcaches, hothers'⟩
  | true =>
    have hctr : t.values .counter = ofInt (start - j) :=
      (hkept .counter rfl).trans (h.enter_counter info)
    refine ⟨_, rfl, ⟨fun x hx => ?_, hagree.gradients⟩, fun _ => ?_, hcaches, hothers'⟩
    · have hne : x ≠ .nextCounter := fun heq => hP x hx (heq ▸ rfl)
      exact (update_of_ne hne ..).trans (hagree.values x hx)
    · simp only [update_self, map_cons, headD_cons, hctr, toInt_ofInt]
      congr 1
      push_cast
      ring

theorem iteration {p' : List α × State α} (hstep : op.iteration p = some p') :
    ∃ q', (op.lowerPops info counts inside hoisted).op.iteration q = some q' ∧
      Popping P op counts inside hoisted (j + 1) start held base pushed p' q' := by
  obtain ⟨s, hrun, rfl⟩ := map_eq_some_iff.mp hstep
  obtain ⟨t, hrun', hagree, hctr, hcaches, hothers⟩ :=
    h.body info hwf hP hover hpushes honce hentries hpopped hholds hj hcounts hstart hrun
  refine ⟨_, congrArg (Option.map _) hrun', ?_, (length_map _).trans hwf.returns_length,
    ⟨h.agree.values, hagree.gradients⟩, h.holds, fun e he c hc => (hcaches e he c hc).1,
    fun e he c hc => (hcaches e he c hc).2, hothers⟩
  rw [lowerPops_returns]
  change (op.returns ++ _).map t.values = _
  rw [map_append, hagree.map_operands hover.returns]
  refine congrArg _ ?_
  cases counts with
  | true => exact congrArg (fun a => [a]) (hctr rfl)
  | false => rfl

end

theorem test_eq (info : LoopInfo) (h : Popping P op counts inside hoisted j start held base pushed p q)
    (hP : ∀ x, P x → ¬x.IsCache) (hover : op.Over P) :
    (op.lowerPops info counts inside hoisted).op.test q = op.test p := by
  rw [lowerPops_test]
  exact congrArg op.cond ((h.enter_agree info hP).map_operands hover.condUses)

end Popping

theorem countFrom_congr {info : LoopInfo} (hagree : AgreeOn P s t) (hlimit : P info.limit) :
    info.countFrom t = info.countFrom s := by
  rw [LoopInfo.countFrom, LoopInfo.countFrom, hagree.values _ hlimit]

variable {content : CachedValue → α}

theorem lowerPops_before (op : LoopOp α) (info : LoopInfo) (counts : Bool) (hP : ∀ x, P x → ¬x.IsCache)
    (hnodup : ((inside ++ hoisted).map fun e => e.1.cache).Nodup) (hlimit : P info.limit)
    (hheld : ∀ e ∈ inside ++ hoisted, t.caches e.1.cache = content e :: base e.1.cache) :
    ∃ t', runBlock (op.lowerPops info counts inside hoisted).before t = some t' ∧ AgreeOn P t t' ∧
      (∀ e ∈ inside ++ hoisted, t'.values (.cache e.1.cache) = content e) ∧
      (∀ e ∈ inside ++ hoisted, t'.caches e.1.cache = base e.1.cache) ∧
      (∀ c, c ∉ (inside ++ hoisted).map (fun e => e.1.cache) → t'.caches c = t.caches c) ∧
      (counts = true → t'.values .counterStart = ofInt (info.countFrom t)) := by
  rw [map_append] at hnodup
  obtain ⟨hinside, hhoisted, hdisjoint⟩ := nodup_append'.mp hnodup
  obtain ⟨t₁, hrun₁, hgradients₁, hread₁, hbase₁, hkept₁, hvalues₁⟩ := popsBefore_run content base
    hhoisted fun e he => hheld e (mem_append_right _ he)
  have hagree₁ : AgreeOn P t t₁ :=
    ⟨fun x hx => hvalues₁ x fun e _ heq => hP x hx (heq ▸ rfl), hgradients₁⟩
  have hctr : ∃ t₂, runBlock (if counts then counterStart info else []) t₁ = some t₂ ∧
      t₂.gradients = t₁.gradients ∧ t₂.caches = t₁.caches ∧
      (counts = true → t₂.values .counterStart = ofInt (info.countFrom t)) ∧
      ∀ x, x ≠ .counterStart → x ≠ .numIters → t₂.values x = t₁.values x := by
    cases counts with
    | false => exact ⟨t₁, rfl, rfl, rfl, nofun, fun _ _ _ => rfl⟩
    | true =>
      obtain ⟨t₂, hrun₂, hgradients₂, hcaches₂, hstart, hvalues₂⟩ := counterStart_run info t₁
      refine ⟨t₂, hrun₂, hgradients₂, hcaches₂, fun _ => ?_, hvalues₂⟩
      rw [hstart, countFrom_congr hagree₁ hlimit]
  obtain ⟨t₂, hrun₂, hgradients₂, hcaches₂, hstart, hvalues₂⟩ := hctr
  have hfree : ∀ e ∈ inside, e.1.cache ∉ hoisted.map fun e => e.1.cache :=
    fun e he => hdisjoint (mem_map_of_mem he)
  have hfree' : ∀ e ∈ hoisted, e.1.cache ∉ inside.map fun e => e.1.cache :=
    fun e he hin => hdisjoint hin (mem_map_of_mem he)
  obtain ⟨t₃, hrun₃, hgradients₃, hread₃, hbase₃, hkept₃, hvalues₃⟩ := popsBefore_run content base
    hinside (t := t₂) fun e he => by
      rw [hcaches₂, hkept₁ _ (hfree e he)]
      exact hheld e (mem_append_left _ he)
  refine ⟨t₃, ?_, ⟨fun x hx => ?_, hgradients₃.trans (hgradients₂.trans hgradients₁)⟩,
    fun e he => ?_, fun e he => ?_, fun c hc => ?_, fun hcounts => ?_⟩
  · have hbefore : (op.lowerPops info counts inside hoisted).before =
        (hoisted.map fun e => .pop (.cache e.1.cache) e.1.cache) ++ (if counts then counterStart info else []) ++
            inside.map fun e => .pop (.cache e.1.cache) e.1.cache := by
      cases counts with
      | true => rfl
      | false => exact congrArg (· ++ _) (append_nil _).symm
    rw [hbefore, runBlock_append, runBlock_append, hrun₁, bind_some, hrun₂, bind_some, hrun₃]
  · rw [hvalues₃ x fun e _ heq => hP x hx (heq ▸ rfl), hvalues₂ x (fun heq => hP x hx (heq ▸ rfl))
      (fun heq => hP x hx (heq ▸ rfl))]
    exact hagree₁.values x hx
  · rcases mem_append.mp he with he | he
    · exact hread₃ e he
    · have hne : ∀ e' ∈ inside, Value.cache e.1.cache ≠ .cache e'.1.cache := fun e' he' heq =>
        hfree' e he (mem_map.mpr ⟨e', he', (Value.cache.inj heq).symm⟩)
      rw [hvalues₃ _ hne, hvalues₂ (.cache e.1.cache) nofun nofun]
      exact hread₁ e he
  · rcases mem_append.mp he with he | he
    · exact hbase₃ e he
    · rw [hkept₃ _ (hfree' e he), hcaches₂]
      exact hbase₁ e he
  · rw [map_append, mem_append, not_or] at hc
    rw [hkept₃ c hc.1, hcaches₂, hkept₁ c hc.2]
  · have hne : ∀ e ∈ inside, Value.counterStart ≠ .cache e.1.cache := fun _ _ => nofun
    rw [hvalues₃ _ hne, hstart hcounts]

/-- A run of the reverse loop is a run of the lowered one: every body ends with the same values,
and the loops with the same state. -/
theorem lowerPops_exec (info : LoopInfo) (counts : Bool) (base : Nat → List α) (hwf : op.WellFormed)
    (hP : ∀ x, P x → ¬x.IsCache) (hover : op.Over P) (hpushes : pushes op.body = [])
    (honce : ((pops op.body).map Prod.fst).Nodup) (hentries : Entries (inside ++ hoisted))
    (hpopped : ∀ e ∈ inside ++ hoisted, ∀ c ∈ e.1.members, c ∈ (pops op.body).map Prod.fst)
    (hlimit : P info.limit) (hcounts : inside ≠ [] → counts = true) (hlen : ∀ e, (pushed e).length = n)
    (hrows : ∀ e ∈ inside, (rows (content e)).length = numRows ∧ (rows (content e)).take n = (pushed e).reverse)
    (houtside : ∀ e ∈ hoisted, pushed e = replicate n (content e)) (hagree : AgreeOn P s t)
    (hcontents : ∀ e ∈ inside ++ hoisted, ∀ c ∈ e.1.members, s.caches c = pushed e ++ base c)
    (hheld : ∀ e ∈ inside ++ hoisted, t.caches e.1.cache = content e :: base e.1.cache)
    (hmembers : ∀ e ∈ inside ++ hoisted, ∀ c ∈ e.1.members,
      c ∉ (inside ++ hoisted).map (fun e => e.1.cache) → t.caches c = base c)
    (hothers : ∀ c, (∀ e ∈ inside ++ hoisted, c ∉ e.1.members) → t.caches c = s.caches c)
    (hstart : counts = true → 0 < n → info.countFrom s = n - 1) (h : op.exec n s = some s') :
    ∃ th t', runBlock (op.lowerPops info counts inside hoisted).before t = some th ∧
      (op.lowerPops info counts inside hoisted).op.exec n th = some t' ∧ AgreeOn P s' t' ∧
      t'.caches = s'.caches ∧ ∀ k < n, ∀ e, op.bodyEnd k s = some e →
        ∃ e', (op.lowerPops info counts inside hoisted).op.bodyEnd k th = some e' ∧ AgreeOn P e e' := by
  obtain ⟨th, hbefore, hagree', hread, hbase, hkept, hctr⟩ :=
    lowerPops_before op info counts hP hentries.nodup hlimit hheld
  have hholds : Holds inside hoisted numRows n th.values pushed := by
    refine ⟨hlen, fun e he => ?_, fun e he => ?_, fun e he => ?_⟩
    · rw [hread e (mem_append_left _ he), (hrows e he).1]
    · rw [hread e (mem_append_left _ he), (hrows e he).2]
    · rw [hread e (mem_append_right _ he), houtside e he]
  have hpopping : Popping P op counts inside hoisted 0 (info.countFrom s) th.values base pushed
      (op.operands.map s.values, s)
      ((op.lowerPops info counts inside hoisted).op.operands.map th.values, th) := by
    have hagree₀ : AgreeOn P s th := ⟨fun x hx => (hagree'.values x hx).trans (hagree.values x hx),
      hagree'.gradients.trans hagree.gradients⟩
    refine ⟨?_, (length_map _).trans hwf.operands_length, hagree₀, fun _ _ => rfl,
      hcontents, fun e he c hc => ?_, fun c hc => ?_⟩
    · rw [lowerPops_operands, map_append, hagree₀.map_operands hover.operands]
      refine congrArg (op.operands.map s.values ++ ·) ?_
      cases counts with
      | true =>
        refine congrArg (fun a => [a]) ((hctr rfl).trans (congrArg ofInt ?_))
        rw [countFrom_congr hagree hlimit, Nat.cast_zero, Int.sub_zero]
      | false => rfl
    · by_cases hkey : c ∈ (inside ++ hoisted).map fun e => e.1.cache
      · obtain ⟨e', he', rfl⟩ := mem_map.mp hkey
        exact hbase e' he'
      · exact (hkept c hkey).trans (hmembers e he c hc hkey)
    · have hkey : c ∉ (inside ++ hoisted).map fun e => e.1.cache := by
        intro hin
        obtain ⟨e', he', rfl⟩ := mem_map.mp hin
        exact hc e' he' (hentries.cache_mem e' he')
      exact (hkept c hkey).trans (hothers c hc)
  have htest : ∀ k p q, k ≤ n → Popping P op counts inside hoisted k (info.countFrom s) th.values base pushed p q →
      (op.lowerPops info counts inside hoisted).op.test q = op.test p :=
    fun _ _ _ _ hR => hR.test_eq info hP hover
  have hstep : ∀ k p q p', k < n → Popping P op counts inside hoisted k (info.countFrom s) th.values base pushed p q →
      op.test p = true → op.iteration p = some p' →
      ∃ q', (op.lowerPops info counts inside hoisted).op.iteration q = some q' ∧
        Popping P op counts inside hoisted (k + 1) (info.countFrom s) th.values base pushed p' q' :=
    fun k _ _ _ hk hR _ hit => hR.iteration info hwf hP hover hpushes honce hentries hpopped hholds hk
      hcounts (fun hcounts => hstart hcounts (by omega)) hit
  obtain ⟨p, hsteps, rfl⟩ := map_eq_some_iff.mp h
  obtain ⟨q, hsteps', hend⟩ := Loop.steps_simulates
    (R := fun k => Popping P op counts inside hoisted k (info.countFrom s) th.values base pushed)
    htest hstep hpopping hsteps
  have hresults : op.results.length = p.1.length := hwf.results_length.trans hend.length.symm
  refine ⟨th, _, hbefore, congrArg (Option.map _) hsteps', ⟨fun x hx => ?_, hend.agree.gradients⟩,
    ?_, fun k hk e he => ?_⟩
  · rw [lowerPops_results]
    change assign q.2.values _ q.1 x = assign _ _ _ x
    rw [hend.carried, assign_append hresults, assign_of_notMem]
    · exact assign_congr_at (hend.agree.values x hx) _ _
    · cases counts with
      | true => exact fun hin => hP x hx (mem_singleton.mp hin ▸ rfl)
      | false => exact not_mem_nil
  · funext c
    change q.2.caches c = p.2.caches c
    by_cases hmem : ∃ e ∈ inside ++ hoisted, c ∈ e.1.members
    · obtain ⟨e, he, hc⟩ := hmem
      rw [hend.lowered e he c hc, hend.contents e he c hc, ← hlen e, drop_length, nil_append]
    · exact hend.others c fun e he hc => hmem ⟨e, he, hc⟩
  · obtain ⟨pk, henters, hrun⟩ := bind_eq_some_iff.mp he
    obtain ⟨qk, henters', hpk⟩ := Loop.enters_simulates
      (R := fun k => Popping P op counts inside hoisted k (info.countFrom s) th.values base pushed)
      htest hstep hpopping (show 0 + k ≤ n by omega) henters
    rw [zero_add] at hpk
    obtain ⟨e', hrun', hagreeEnd, -⟩ := hpk.body info hwf hP hover hpushes honce hentries hpopped
      hholds hk hcounts (fun hcounts => hstart hcounts (by omega)) hrun
    exact ⟨e', bind_eq_some_iff.mpr ⟨qk, henters', hrun'⟩, hagreeEnd⟩

end LoopOp

end EnzymeJax
