import Mathlib.Data.List.Nodup
import Mathlib.Logic.Function.Basic
import Mathlib.Tactic

/-!
# Blocks with gradients and caches

Straight-line code in SSA form over the operations of the enzyme dialect: a gradient is a mutable
cell, a cache is a stack. Values carry the contents of a tensor, of any type.
-/

namespace EnzymeJax

open List Option Function

/-- The values of a program are numbered; the others are created by a lowering, for a gradient or a
cache. -/
inductive Value where
  | source (n : Nat)
  | outerGet (gradient : Nat)
  | dummy (cache : Nat)
  | gradient (gradient : Nat)
  | cache (cache : Nat)
  | gradientArg (gradient : Nat)
  | cacheArg (cache : Nat)
  | updated (cache : Nat)
  | numIters
  | counterStart
  | counter
  | nextCounter
  deriving DecidableEq

def Value.IsSource : Value → Bool
  | source _ => true
  | _ => false

variable {x : Value}

theorem Value.eq_source_of_isSource (hx : x.IsSource) : ∃ n, x = .source n := by
  cases x with
  | source n => exact ⟨n, rfl⟩
  | _ => cases hx

inductive BlockOp (α : Type*) where
  | pure (result : Value) (operands : List Value) (fn : List α → α)
  | get (result : Value) (gradient : Nat)
  | set (gradient : Nat) (value : Value)
  | push (cache : Nat) (value : Value)
  | pop (result : Value) (cache : Nat)

@[ext] structure State (α : Type*) where
  values : Value → α
  gradients : Nat → α
  caches : Nat → List α

variable {α : Type*}

def State.withValues (s : State α) (values : Value → α) : State α := { s with values := values }

namespace BlockOp

def results : BlockOp α → List Value
  | pure result _ _ | get result _ | pop result _ => [result]
  | set _ _ | push _ _ => []

def operands : BlockOp α → List Value
  | pure _ operands _ => operands
  | set _ value | push _ value => [value]
  | get _ _ | pop _ _ => []

def isPush : BlockOp α → Bool
  | push _ _ => true
  | _ => false

def isPop : BlockOp α → Bool
  | pop _ _ => true
  | _ => false

/-- A pop needs a cache that is not empty. -/
def exec : BlockOp α → State α → Option (State α)
  | pure result operands fn, s =>
    some { s with values := Function.update s.values result (fn (operands.map s.values)) }
  | get result g, s => some { s with values := Function.update s.values result (s.gradients g) }
  | set g value, s => some { s with gradients := Function.update s.gradients g (s.values value) }
  | push c value, s =>
    some { s with caches := Function.update s.caches c (s.values value :: s.caches c) }
  | pop result c, s =>
    match s.caches c with
    | [] => none
    | a :: rest =>
      some { s with
        values := Function.update s.values result a
        caches := Function.update s.caches c rest }

end BlockOp

def runBlock : List (BlockOp α) → State α → Option (State α)
  | [], s => some s
  | op :: ops, s => (op.exec s).bind (runBlock ops)

def definedIn (ops : List (BlockOp α)) : List Value := ops.flatMap BlockOp.results

/-- Every value is defined once, and before it is used. -/
def Ssa (ops : List (BlockOp α)) : Prop :=
  ops.Pairwise fun op op' => ∀ x ∈ op'.results, x ∉ op.operands ∧ x ∉ op.results

instance (ops : List (BlockOp α)) : Decidable (Ssa ops) :=
  inferInstanceAs (Decidable (ops.Pairwise _))

/-- The caches pushed to, with the values pushed. -/
def pushes (ops : List (BlockOp α)) : List (Nat × Value) :=
  ops.filterMap fun op => match op with
    | .push c v => some (c, v)
    | _ => none

/-- The caches popped, with the results. -/
def pops (ops : List (BlockOp α)) : List (Nat × Value) :=
  ops.filterMap fun op => match op with
    | .pop x c => some (c, x)
    | _ => none

def erasePushes (ops : List (BlockOp α)) : List (BlockOp α) := ops.filter (!·.isPush)

def erasePops (ops : List (BlockOp α)) : List (BlockOp α) := ops.filter (!·.isPop)

/-- The values `xs` get the contents `as`. -/
def assign (values : Value → α) : List Value → List α → Value → α
  | x :: xs, a :: as => assign (Function.update values x a) xs as
  | _, _ => values

/-! ### States that cannot be told apart -/

/-- Two states that the code of the program cannot tell apart, but for some caches. -/
structure State.Agree (caches : List Nat) (s t : State α) : Prop where
  values : ∀ x : Value, x.IsSource → t.values x = s.values x
  gradients : t.gradients = s.gradients
  caches : ∀ c, c ∉ caches → t.caches c = s.caches c

/-- The code between the ifs neither reads nor changes the caches of the pair. -/
structure Transparent (caches : List Nat) (middle : State α → Option (State α)) : Prop where
  agree : ∀ s t s', State.Agree caches s t → middle s = some s' → ∃ t', middle t = some t' ∧ State.Agree caches s' t'
  keeps : ∀ s s', middle s = some s' → ∀ c ∈ caches, s'.caches c = s.caches c

theorem transparent_some (caches : List Nat) : Transparent caches (some : State α → _) where
  agree s t s' hagree h := by
    cases h
    exact ⟨t, rfl, hagree⟩
  keeps s s' h c _ := by
    cases h
    rfl

/-! ### Assignments -/

variable {xs : List Value} {as : List α} {ι β γ : Type*} {c : Nat} {l : List (β × γ)}

theorem assign_append (hlen : xs.length = as.length) (values : Value → α) (ys : List Value) (bs : List α) :
    assign values (xs ++ ys) (as ++ bs) = assign (assign values xs as) ys bs := by
  induction xs generalizing values as with
  | nil =>
    obtain rfl := length_eq_zero_iff.mp hlen.symm
    rfl
  | cons x xs ih =>
    obtain ⟨a, as, rfl⟩ := exists_cons_of_length_eq_add_one hlen.symm
    exact ih (add_right_cancel hlen) _

theorem assign_of_notMem (hx : x ∉ xs) (values : Value → α) (as : List α) : assign values xs as x = values x := by
  induction xs generalizing values as with
  | nil => rfl
  | cons y xs ih =>
    obtain ⟨hne, hxs⟩ := not_or.mp (mt mem_cons.mpr hx)
    cases as with
    | nil => rfl
    | cons a as => rw [assign, ih hxs, update_of_ne hne]

theorem assign_congr (hlen : xs.length = as.length) (hx : x ∈ xs) (values values' : Value → α) :
    assign values xs as x = assign values' xs as x := by
  induction xs generalizing values values' as with
  | nil => cases hx
  | cons y xs ih =>
    obtain ⟨a, as, rfl⟩ := exists_cons_of_length_eq_add_one hlen.symm
    have hlen' := add_right_cancel hlen
    by_cases hxs : x ∈ xs
    · exact ih hlen' hxs _ _
    · obtain rfl := (mem_cons.mp hx).resolve_right hxs
      rw [assign, assign, assign_of_notMem hxs, assign_of_notMem hxs, update_self, update_self]

theorem assign_congr_at {values values' : Value → α} (h : values x = values' x)
    (xs : List Value) (as : List α) : assign values xs as x = assign values' xs as x := by
  induction xs generalizing values values' as with
  | nil => exact h
  | cons y xs ih =>
    cases as with
    | nil => exact h
    | cons a as =>
      refine ih ?_ as
      by_cases heq : x = y
      · rw [heq, update_self, update_self]
      · rw [update_of_ne heq, update_of_ne heq, h]

theorem assign_map (name : ι → Value) (val : ι → α) {l : List ι} {i : ι} (hi : i ∈ l)
    (hname : ∀ j ∈ l, name j = name i → j = i) (values : Value → α) :
    assign values (l.map name) (l.map val) (name i) = val i := by
  induction l generalizing values with
  | nil => cases hi
  | cons j l ih =>
    obtain ⟨hj, hl⟩ := forall_mem_cons.mp hname
    rw [map_cons, map_cons, assign]
    by_cases hmem : i ∈ l
    · exact ih hmem hl _
    · obtain rfl := (mem_cons.mp hi).resolve_right hmem
      have hnot : name i ∉ l.map name := by
        intro h
        obtain ⟨j, hj, heq⟩ := mem_map.mp h
        exact hmem (hl j hj heq ▸ hj)
      rw [assign_of_notMem hnot, update_self]

/-! ### Running a block -/

theorem runBlock_append (ops ops' : List (BlockOp α)) (s : State α) :
    runBlock (ops ++ ops') s = (runBlock ops s).bind (runBlock ops') := by
  induction ops generalizing s with
  | nil => rfl
  | cons op ops ih =>
    rw [cons_append, runBlock, runBlock, bind_assoc]
    congr 1
    funext s
    exact ih s

variable {ops : List (BlockOp α)}

variable {s s' : State α}

variable {op : BlockOp α}

theorem runBlock_cons_eq_some :
    runBlock (op :: ops) s = some s' ↔ ∃ s₁, op.exec s = some s₁ ∧ runBlock ops s₁ = some s' :=
  bind_eq_some_iff

theorem exec_values (h : op.exec s = some s') (hx : x ∉ op.results) : s'.values x = s.values x := by
  cases op with
  | pure result operands fn | get result g =>
    cases h
    exact update_of_ne (ne_of_not_mem_cons hx) _ _
  | set g value | push c value =>
    cases h
    rfl
  | pop result c =>
    rw [BlockOp.exec] at h
    split at h
    · cases h
    · cases h
      exact update_of_ne (ne_of_not_mem_cons hx) _ _

theorem runBlock_values (h : runBlock ops s = some s') (hx : x ∉ definedIn ops) : s'.values x = s.values x := by
  induction ops generalizing s with
  | nil =>
    cases h
    rfl
  | cons op ops ih =>
    obtain ⟨s₁, hexec, hrun⟩ := runBlock_cons_eq_some.mp h
    rw [definedIn, flatMap_cons, mem_append, not_or] at hx
    rw [ih hrun hx.2, exec_values hexec hx.1]

theorem fst_mem {b : β} {c : γ} (h : (b, c) ∈ l) : b ∈ l.map Prod.fst :=
  mem_map.mpr ⟨_, h, rfl⟩

theorem snd_mem {b : β} {c : γ} (h : (b, c) ∈ l) : c ∈ l.map Prod.snd :=
  mem_map.mpr ⟨_, h, rfl⟩

theorem runBlock_gradients (h : runBlock ops s = some s')
    {g : Nat} (hg : ∀ v, .set g v ∉ ops) : s'.gradients g = s.gradients g := by
  induction ops generalizing s with
  | nil =>
    cases h
    rfl
  | cons op ops ih =>
    obtain ⟨s₁, hexec, hrun⟩ := runBlock_cons_eq_some.mp h
    rw [ih hrun fun v hv => hg v (mem_cons_of_mem _ hv)]
    cases op with
    | set g' value =>
      cases hexec
      have hne : g ≠ g' := by
        intro heq
        exact hg value (heq ▸ mem_cons_self)
      exact update_of_ne hne _ _
    | pop result c =>
      rw [BlockOp.exec] at hexec
      split at hexec
      · cases hexec
      · cases hexec
        rfl
    | pure result operands fn | get result g' | push c value =>
      cases hexec
      rfl

theorem mem_definedIn_cons :
    x ∈ definedIn (op :: ops) ↔ x ∈ op.results ∨ x ∈ definedIn ops := by
  rw [definedIn, flatMap_cons, mem_append]
  rfl

theorem notMem_of_ssa (hssa : Ssa (op :: ops)) (hx : x ∈ definedIn ops) : x ∉ op.operands ∧ x ∉ op.results := by
  obtain ⟨op', hop', hres⟩ := mem_flatMap.mp hx
  exact (pairwise_cons.mp hssa).1 op' hop' x hres

/-! ### Pushes -/

theorem runBlock_caches_of_notMem (h : runBlock ops s = some s') (hpops : pops ops = [])
    (hc : c ∉ (pushes ops).map Prod.fst) : s'.caches c = s.caches c := by
  induction ops generalizing s with
  | nil =>
    cases h
    rfl
  | cons op ops ih =>
    obtain ⟨s₁, hexec, hrun⟩ := runBlock_cons_eq_some.mp h
    cases op with
    | pop result c' => cases hpops
    | push c' value =>
      have hc' := not_or.mp (mt mem_cons.mpr hc)
      cases hexec
      rw [ih hrun hpops hc'.2]
      exact update_of_ne hc'.1 _ _
    | pure result operands fn | get result g | set g value =>
      cases hexec
      rw [ih hrun hpops hc]

theorem runBlock_caches_of_mem (h : runBlock ops s = some s') (hpops : pops ops = []) (hssa : Ssa ops)
    (hnodup : ((pushes ops).map Prod.fst).Nodup) {v : Value} (hc : (c, v) ∈ pushes ops) :
    s'.caches c = s'.values v :: s.caches c := by
  induction ops generalizing s with
  | nil => cases hc
  | cons op ops ih =>
    obtain ⟨s₁, hexec, hrun⟩ := runBlock_cons_eq_some.mp h
    obtain ⟨hlater, hssa'⟩ := pairwise_cons.mp hssa
    cases op with
    | pop result c' => cases hpops
    | push c' value =>
      obtain ⟨hc', hnodup'⟩ := nodup_cons.mp hnodup
      cases hexec
      rcases mem_cons.mp hc with heq | hmem
      · cases heq
        have hval : v ∉ definedIn ops := by
          intro hv
          obtain ⟨op', hop', hres⟩ := mem_flatMap.mp hv
          exact (hlater op' hop' v hres).1 mem_cons_self
        rw [runBlock_caches_of_notMem hrun hpops hc', runBlock_values hrun hval]
        exact update_self _ _ _
      · have hne : c ≠ c' := by
          intro heq
          exact hc' (heq ▸ fst_mem hmem)
        rw [ih hrun hpops hssa' hnodup' hmem]
        exact congrArg _ (update_of_ne hne _ _)
    | pure result operands fn | get result g | set g value =>
      cases hexec
      rw [ih hrun hpops hssa' hnodup hc]

/-! ### Pops -/

/-- The state before an operation from the one after it, where other values may have changed. -/
def State.before (op : BlockOp α) (s p : State α) : State α where
  values x := if x ∈ op.results then s.values x else p.values x
  gradients := s.gradients
  caches := p.caches

theorem exec_before {s s₁ p : State α} (hexec : op.exec s = some s₁)
    (hpush : op.isPush = false) (hpop : op.isPop = false) (hgradients : p.gradients = s₁.gradients)
    (hvals : ∀ x, x ∈ op.operands ∨ x ∈ op.results → p.values x = s₁.values x) :
    op.exec (.before op s p) = some p := by
  have hread : ∀ x ∈ op.operands, (State.before op s p).values x = s.values x := by
    intro x hx
    simp only [State.before]
    by_cases hres : x ∈ op.results
    · rw [if_pos hres]
    · rw [if_neg hres, ← exec_values hexec hres]
      exact hvals x (.inl hx)
  have hassign : ∀ result a, op.results = [result] → p.values result = a →
      update (State.before op s p).values result a = p.values := by
    intro result a hres ha
    funext x
    by_cases heq : x = result
    · rw [heq, update_self, ha]
    · rw [update_of_ne heq]
      refine if_neg ?_
      rw [hres]
      exact fun hx => heq (mem_singleton.mp hx)
  cases op with
  | push c value => cases hpush
  | pop result c => cases hpop
  | set g value =>
    cases hexec
    rw [BlockOp.exec, hread value mem_cons_self]
    refine congrArg some (State.ext ?_ hgradients.symm rfl)
    funext x
    simp only [State.before, BlockOp.results, not_mem_nil, if_false]
  | pure result operands fn =>
    cases hexec
    have hops : operands.map (State.before (.pure result operands fn) s p).values =
        operands.map s.values := map_congr_left hread
    have hres := hvals result (.inr mem_cons_self)
    rw [BlockOp.exec, hops, hassign result _ rfl (hres.trans (update_self ..))]
    exact congrArg some (State.ext rfl hgradients.symm rfl)
  | get result g =>
    cases hexec
    have hres := hvals result (.inr mem_cons_self)
    refine congrArg some (State.ext ?_ hgradients.symm rfl)
    exact hassign result _ rfl (hres.trans (update_self ..))

theorem mem_pops : (c, x) ∈ pops ops ↔ .pop x c ∈ ops := by
  rw [pops, mem_filterMap]
  constructor
  · intro h
    obtain ⟨op, hop, heq⟩ := h
    cases op with
    | pop result c' =>
      cases some.inj heq
      exact hop
    | pure result operands fn | get result g | set g value | push c value => cases heq
  · exact fun hop => ⟨_, hop, rfl⟩

theorem notMem_pops_of_pairwise (hlater : ∀ op' ∈ ops, ∀ x ∈ op'.results, x ∉ op.operands ∧ x ∉ op.results)
    (hx : x ∈ op.operands ∨ x ∈ op.results) : x ∉ (pops ops).map Prod.snd := by
  intro hpop
  obtain ⟨⟨c, y⟩, hy, rfl⟩ := mem_map.mp hpop
  have hnot := hlater _ (mem_pops.mp hy) y mem_cons_self
  exact hx.elim hnot.1 hnot.2

theorem exists_runBlock_erasePops (h : runBlock ops s = some s') (hpushes : pushes ops = []) (hssa : Ssa ops)
    (hnodup : ((pops ops).map Prod.fst).Nodup) :
    ∃ p, runBlock (erasePops ops) p = some s' ∧ p.gradients = s.gradients ∧
      (∀ c x, (c, x) ∈ pops ops → s.caches c = p.values x :: p.caches c) ∧
      (∀ c, c ∉ (pops ops).map Prod.fst → p.caches c = s.caches c) ∧
      ∀ x, x ∉ (pops ops).map Prod.snd → p.values x = s.values x := by
  induction ops generalizing s with
  | nil => exact ⟨s, h, rfl, nofun, fun _ _ => rfl, fun _ _ => rfl⟩
  | cons op ops ih =>
    obtain ⟨s₁, hexec, hrun⟩ := runBlock_cons_eq_some.mp h
    obtain ⟨hlater, hssa'⟩ := pairwise_cons.mp hssa
    have hfresh : ∀ x, x ∈ op.operands ∨ x ∈ op.results → x ∉ (pops ops).map Prod.snd :=
      fun x hx => notMem_pops_of_pairwise hlater hx
    by_cases hpop : op.isPop = true
    · cases op with
      | pop result c =>
        obtain ⟨hc, hnodup'⟩ := nodup_cons.mp hnodup
        obtain ⟨p, hp, hgradients, hmem, hnotMem, hvals⟩ := ih hrun hpushes hssa' hnodup'
        rw [BlockOp.exec] at hexec
        split at hexec
        · cases hexec
        · rename_i a rest hcache
          cases hexec
          refine ⟨p, hp, hgradients, fun c' x hx => ?_, fun c' hc' => ?_, fun x hx => ?_⟩
          · rcases mem_cons.mp hx with heq | hx'
            · obtain ⟨rfl, rfl⟩ := Prod.mk.inj heq
              rw [hcache, hnotMem c' hc, hvals x (hfresh x (.inr mem_cons_self))]
              simp only [update_self]
            · have hne : c' ≠ c := by
                intro heq
                exact hc (heq ▸ fst_mem hx')
              rw [← hmem c' x hx']
              exact (update_of_ne hne _ _).symm
          · obtain ⟨hne, hrest⟩ := not_or.mp (mt mem_cons.mpr hc')
            rw [hnotMem c' hrest]
            exact update_of_ne hne _ _
          · obtain ⟨hne, hrest⟩ := not_or.mp (mt mem_cons.mpr hx)
            rw [hvals x hrest]
            exact update_of_ne hne _ _
      | pure result operands fn | get result g | set g value | push c value => cases hpop
    · have hpop' : op.isPop = false := Bool.eq_false_iff.mpr hpop
      have hpush : op.isPush = false := by
        cases op with
        | push c value => cases hpushes
        | _ => rfl
      have hcons : pops (op :: ops) = pops ops ∧ pushes (op :: ops) = pushes ops ∧ s₁.caches = s.caches := by
        cases op with
        | push c value => cases hpush
        | pop result c => cases hpop'
        | _ =>
          cases hexec
          exact ⟨rfl, rfl, rfl⟩
      rw [hcons.1] at hnodup ⊢
      obtain ⟨p, hp, hgradients, hmem, hnotMem, hvals⟩ :=
        ih hrun (hcons.2.1 ▸ hpushes) hssa' hnodup
      have hbefore := exec_before hexec hpush hpop' hgradients fun x hx => hvals x (hfresh x hx)
      refine ⟨.before op s p, ?_, rfl, fun c x hx => ?_, fun c hc => ?_, fun x hx => ?_⟩
      · rw [erasePops, filter_cons_of_pos (by rw [hpop']; rfl)]
        exact runBlock_cons_eq_some.mpr ⟨p, hbefore, hp⟩
      · have hres : x ∉ op.results := fun hin => hfresh x (.inr hin) (snd_mem hx)
        rw [← hcons.2.2, hmem c x hx]
        exact congrArg (· :: _) (if_neg hres).symm
      · rw [← hcons.2.2]
        exact hnotMem c hc
      · by_cases hres : x ∈ op.results
        · exact if_pos hres
        · rw [← exec_values hexec hres, ← hvals x hx]
          exact if_neg hres

theorem pushes_erasePops (h : pushes ops = []) :
    pushes (erasePops ops) = [] := by
  refine eq_nil_iff_forall_not_mem.mpr fun q hq => ?_
  obtain ⟨op, hop, heq⟩ := mem_filterMap.mp hq
  have hmem : q ∈ pushes ops := mem_filterMap.mpr ⟨op, (mem_filter.mp hop).1, heq⟩
  rw [h] at hmem
  exact not_mem_nil hmem

theorem pops_erasePops (ops : List (BlockOp α)) : pops (erasePops ops) = [] := by
  refine eq_nil_iff_forall_not_mem.mpr fun q hq => ?_
  exact Bool.false_ne_true (mem_filter.mp (mem_pops.mp hq)).2

/-! ### The code around a lowered operation -/

theorem runBlock_gets (gs : List Nat) (t : State α) :
    ∃ t', runBlock (gs.map fun g => .get (.outerGet g) g) t = some t' ∧
      t'.gradients = t.gradients ∧ t'.caches = t.caches ∧
      (∀ g ∈ gs, t'.values (.outerGet g) = t.gradients g) ∧
      ∀ x, (∀ g, x ≠ .outerGet g) → t'.values x = t.values x := by
  induction gs generalizing t with
  | nil => exact ⟨t, rfl, rfl, rfl, nofun, fun _ _ => rfl⟩
  | cons g gs ih =>
    obtain ⟨t', hrun, hgradients, hcaches, hread, hvals⟩ :=
      ih { t with values := update t.values (.outerGet g) (t.gradients g) }
    refine ⟨t', hrun, hgradients, hcaches, fun g' hg' => ?_, fun x hx => ?_⟩
    · by_cases hmem : g' ∈ gs
      · exact hread g' hmem
      · obtain rfl := (mem_cons.mp hg').resolve_right hmem
        have hkept : .outerGet g' ∉ definedIn (gs.map fun g => (.get (.outerGet g) g : BlockOp α)) := by
          intro hin
          obtain ⟨op, hop, hx⟩ := mem_flatMap.mp hin
          obtain ⟨g, hg, rfl⟩ := mem_map.mp hop
          exact hmem (Value.outerGet.inj (mem_singleton.mp hx) ▸ hg)
        rw [runBlock_values hrun hkept]
        exact update_self _ _ _
    · rw [hvals x hx]
      exact update_of_ne (hx g) _ _

theorem runBlock_dummies (a : α) (cs : List Nat) (t : State α) :
    ∃ t', runBlock (cs.map fun c => .pure (.dummy c) [] fun _ => a) t = some t' ∧
      t'.gradients = t.gradients ∧ t'.caches = t.caches ∧
      (∀ c ∈ cs, t'.values (.dummy c) = a) ∧
      ∀ x, (∀ c, x ≠ .dummy c) → t'.values x = t.values x := by
  induction cs generalizing t with
  | nil => exact ⟨t, rfl, rfl, rfl, nofun, fun _ _ => rfl⟩
  | cons c cs ih =>
    obtain ⟨t', hrun, hgradients, hcaches, hread, hvals⟩ :=
      ih { t with values := update t.values (.dummy c) a }
    refine ⟨t', hrun, hgradients, hcaches, fun c' hc' => ?_, fun x hx => ?_⟩
    · by_cases hmem : c' ∈ cs
      · exact hread c' hmem
      · obtain rfl := (mem_cons.mp hc').resolve_right hmem
        have hkept : .dummy c' ∉
            definedIn (cs.map fun c => (.pure (.dummy c) [] fun _ => a : BlockOp α)) := by
          intro hin
          obtain ⟨op, hop, hx⟩ := mem_flatMap.mp hin
          obtain ⟨c, hc, rfl⟩ := mem_map.mp hop
          exact hmem (Value.dummy.inj (mem_singleton.mp hx) ▸ hc)
        rw [runBlock_values hrun hkept]
        exact update_self _ _ _
    · rw [hvals x hx]
      exact update_of_ne (hx c) _ _

theorem runBlock_sets (gs : List Nat) (t : State α) :
    runBlock (gs.map fun g => .set g (.gradient g)) t =
      some { t with gradients := fun g => if g ∈ gs then t.values (.gradient g) else t.gradients g } := by
  induction gs generalizing t with
  | nil => simp [runBlock]
  | cons g gs ih =>
    rw [map_cons, runBlock, BlockOp.exec, bind_some, ih]
    refine congrArg some (State.ext rfl ?_ rfl)
    funext g'
    by_cases hmem : g' ∈ gs
    · simp [hmem]
    · by_cases heq : g' = g
      · simp [heq, heq ▸ hmem]
      · simp [hmem, heq]

theorem runBlock_pushes (key : ι → Nat) (value : ι → Value) {l : List ι} (hl : (l.map key).Nodup) (t : State α) :
    ∃ caches, runBlock (l.map fun i => .push (key i) (value i)) t = some ⟨t.values, t.gradients, caches⟩ ∧
      (∀ i ∈ l, caches (key i) = t.values (value i) :: t.caches (key i)) ∧
      ∀ c, c ∉ l.map key → caches c = t.caches c := by
  induction l generalizing t with
  | nil => exact ⟨t.caches, rfl, nofun, fun _ _ => rfl⟩
  | cons i l ih =>
    obtain ⟨hi, hl⟩ := nodup_cons.mp hl
    obtain ⟨caches, hrun, hpushed, hkept⟩ := ih hl
      ⟨t.values, t.gradients, update t.caches (key i) (t.values (value i) :: t.caches (key i))⟩
    refine ⟨caches, hrun, fun j hj => ?_, fun c hc => ?_⟩
    · rcases mem_cons.mp hj with rfl | hj
      · rw [hkept _ hi]
        exact update_self ..
      · have hne : key j ≠ key i := fun heq => hi (heq ▸ mem_map_of_mem hj)
        rw [hpushed j hj]
        exact congrArg _ (update_of_ne hne ..)
    · obtain ⟨hne, hc⟩ := not_or.mp (mt mem_cons.mpr hc)
      rw [hkept c hc]
      exact update_of_ne hne ..

end EnzymeJax
