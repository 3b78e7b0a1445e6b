import EnzymeJax.Enzyme.Block

/-!
# Gradients as values

The cells of a block are turned into values: a get is the value last set, or the one the gradient
starts with, and the last value set is what the gradient ends with.
-/

namespace EnzymeJax

open List Option Function

variable {α : Type*}

/-- A block without gets and sets, what the results of its gets were replaced by, and the values
the gradients have. -/
structure Promoted (α : Type*) where
  ops : List (BlockOp α)
  rename : Value → Value
  current : Nat → Value

/-- A get is replaced by the value its gradient has; a set changes that value. -/
def promote : List (BlockOp α) → (Value → Value) → (Nat → Value) → Promoted α
  | [], rename, current => ⟨[], rename, current⟩
  | .get result g :: ops, rename, current =>
    promote ops (Function.update rename result (current g)) current
  | .set g value :: ops, rename, current =>
    promote ops rename (Function.update current g (rename value))
  | .pure result operands fn :: ops, rename, current =>
    let p := promote ops rename current
    { p with ops := .pure result (operands.map rename) fn :: p.ops }
  | .push c value :: ops, rename, current =>
    let p := promote ops rename current
    { p with ops := .push c (rename value) :: p.ops }
  | .pop result c :: ops, rename, current =>
    let p := promote ops rename current
    { p with ops := .pop result c :: p.ops }

/-- The gradients a block gets before it sets them. -/
def getsFirst : List (BlockOp α) → List Nat → List Nat
  | [], _ => []
  | .get _ g :: ops, known => if g ∈ known then getsFirst ops known else g :: getsFirst ops known
  | .set g _ :: ops, known => getsFirst ops (g :: known)
  | .pure _ _ _ :: ops, known => getsFirst ops known
  | .push _ _ :: ops, known => getsFirst ops known
  | .pop _ _ :: ops, known => getsFirst ops known

variable {ops : List (BlockOp α)}

theorem definedIn_promote {rename : Value → Value} {current : Nat → Value}
    {x : Value} (hx : x ∈ definedIn (promote ops rename current).ops) : x ∈ definedIn ops := by
  induction ops generalizing rename current with
  | nil => exact hx
  | cons op ops ih =>
    cases op with
    | get result g => exact mem_cons_of_mem _ (ih hx)
    | set g value | push c value => exact ih hx
    | pure result operands fn | pop result c =>
      rcases mem_cons.mp hx with rfl | hx
      · exact mem_cons_self
      · exact mem_cons_of_mem _ (ih hx)

theorem promote_rename {x : Value} (hx : ∀ g, .get x g ∉ ops) (rename : Value → Value) (current : Nat → Value) :
    (promote ops rename current).rename x = rename x := by
  induction ops generalizing rename current with
  | nil => rfl
  | cons op ops ih =>
    have hx' : ∀ g, .get x g ∉ ops := fun g hin => hx g (mem_cons_of_mem _ hin)
    cases op with
    | pure result operands fn | push c value | pop result c => exact ih hx' rename current
    | set g value => exact ih hx' rename _
    | get result g =>
      rw [promote, ih hx']
      refine update_of_ne ?_ _ _
      intro heq
      exact hx g (heq ▸ mem_cons_self)

theorem pushes_promote (hssa : Ssa ops) (rename : Value → Value) (current : Nat → Value) :
    pushes (promote ops rename current).ops =
      (pushes ops).map fun q => (q.1, (promote ops rename current).rename q.2) := by
  induction ops generalizing rename current with
  | nil => rfl
  | cons op ops ih =>
    have hssa' : Ssa ops := (pairwise_cons.mp hssa).2
    cases op with
    | pure result operands fn | pop result c => exact ih hssa' rename current
    | get result g => exact ih hssa' _ current
    | set g value => exact ih hssa' rename _
    | push c value =>
      have hval : (promote ops rename current).rename value = rename value := by
        refine promote_rename (fun g hin => ?_) rename current
        have hdefined : value ∈ definedIn ops :=
          mem_flatMap.mpr ⟨_, hin, mem_cons_self⟩
        exact (notMem_of_ssa hssa hdefined).1 mem_cons_self
      exact congrArg₂ (fun v l => (c, v) :: l) hval.symm (ih hssa' rename current)

theorem over_promote {P : Value → Prop} (huses : ∀ op ∈ ops, ∀ x ∈ op.operands, P x) (rename : Value → Value)
    (current : Nat → Value) (hrename : ∀ x, P x → P (rename x)) (hcurrent : ∀ g, P (current g)) :
    (∀ op ∈ (promote ops rename current).ops, ∀ x ∈ op.operands, P x) ∧
      (∀ x, P x → P ((promote ops rename current).rename x)) ∧
      ∀ g, P ((promote ops rename current).current g) := by
  induction ops generalizing rename current with
  | nil => exact ⟨nofun, hrename, hcurrent⟩
  | cons op ops ih =>
    obtain ⟨huses₁, huses'⟩ := forall_mem_cons.mp huses
    cases op with
    | pop result c =>
      obtain ⟨hops, hrest⟩ := ih huses' _ _ hrename hcurrent
      exact ⟨forall_mem_cons.mpr ⟨nofun, hops⟩, hrest⟩
    | pure result operands fn =>
      obtain ⟨hops, hrest⟩ := ih huses' _ _ hrename hcurrent
      refine ⟨forall_mem_cons.mpr ⟨fun x hx => ?_, hops⟩, hrest⟩
      obtain ⟨y, hy, rfl⟩ := mem_map.mp hx
      exact hrename y (huses₁ y hy)
    | push c value =>
      obtain ⟨hops, hrest⟩ := ih huses' _ _ hrename hcurrent
      refine ⟨forall_mem_cons.mpr ⟨fun x hx => ?_, hops⟩, hrest⟩
      rw [mem_singleton.mp hx]
      exact hrename value (huses₁ value mem_cons_self)
    | get result g =>
      refine ih huses' _ _ (fun x hx => ?_) hcurrent
      by_cases heq : x = result
      · rw [heq, update_self]
        exact hcurrent g
      · rw [update_of_ne heq]
        exact hrename x hx
    | set g value =>
      refine ih huses' _ _ hrename fun g' => ?_
      by_cases heq : g' = g
      · rw [heq, update_self]
        exact hrename value (huses₁ value mem_cons_self)
      · rw [update_of_ne heq]
        exact hcurrent g'

theorem ssa_promote (hssa : Ssa ops) {rename : Value → Value} {current : Nat → Value}
    (hfresh : ∀ r ∈ definedIn ops, ∀ x, rename x = r → x = r) (hcurrent : ∀ r ∈ definedIn ops, ∀ g, current g ≠ r) :
    Ssa (promote ops rename current).ops := by
  induction ops generalizing rename current with
  | nil => exact List.Pairwise.nil
  | cons op ops ih =>
    have hssa' : Ssa ops := (pairwise_cons.mp hssa).2
    have hcons : ∀ r ∈ definedIn ops, r ∈ definedIn (op :: ops) :=
      fun r hr => mem_definedIn_cons.mpr (.inr hr)
    have hrest : ∀ op' ∈ (promote ops rename current).ops, ∀ r ∈ op'.results, r ∈ definedIn ops :=
      fun op' hop r hr => definedIn_promote (mem_flatMap.mpr ⟨op', hop, hr⟩)
    have hkept := ih hssa' (fun r hr => hfresh r (hcons r hr)) (fun r hr => hcurrent r (hcons r hr))
    -- What is defined later is not the new name of an operand.
    have hrenamed : ∀ r ∈ definedIn ops, ∀ x ∈ op.operands, rename x ≠ r := by
      intro r hr x hx heq
      obtain rfl := hfresh r (hcons r hr) x heq
      exact (notMem_of_ssa hssa hr).1 hx
    cases op with
    | pure result operands fn =>
      refine pairwise_cons.mpr ⟨fun op' hop r hr => ⟨fun hin => ?_, ?_⟩, hkept⟩
      · obtain ⟨x, hx, heq⟩ := mem_map.mp hin
        exact hrenamed r (hrest op' hop r hr) x hx heq
      · exact (notMem_of_ssa hssa (hrest op' hop r hr)).2
    | push c value =>
      refine pairwise_cons.mpr ⟨fun op' hop r hr => ⟨fun hin => ?_, not_mem_nil⟩, hkept⟩
      have heq := mem_singleton.mp hin
      exact hrenamed r (hrest op' hop r hr) value mem_cons_self heq.symm
    | pop result c =>
      refine pairwise_cons.mpr ⟨fun op' hop r hr => ⟨not_mem_nil, ?_⟩, hkept⟩
      exact (notMem_of_ssa hssa (hrest op' hop r hr)).2
    | get result g =>
      refine ih hssa' (fun r hr x hx => ?_) (fun r hr => hcurrent r (hcons r hr))
      by_cases heq : x = result
      · rw [heq, update_self] at hx
        exact absurd hx (hcurrent r (hcons r hr) g)
      · rw [update_of_ne heq] at hx
        exact hfresh r (hcons r hr) x hx
    | set g value =>
      refine ih hssa' (fun r hr => hfresh r (hcons r hr)) (fun r hr g' hg' => ?_)
      by_cases heq : g' = g
      · rw [heq, update_self] at hg'
        exact hrenamed r hr value mem_cons_self hg'
      · rw [update_of_ne heq] at hg'
        exact hcurrent r (hcons r hr) g' hg'

/-- The states of the block and of the promoted one: the values `live` agree up to the renaming, and the gradients
`tracked` are held by values. -/
structure Simulates (ops : List (BlockOp α)) (live : Value → Prop) (tracked : Nat → Prop)
    (rename : Value → Value) (current : Nat → Value) (s t : State α) : Prop where
  values : ∀ x, live x → t.values (rename x) = s.values x
  gradients : ∀ g, tracked g → t.values (current g) = s.gradients g
  caches : t.caches = s.caches
  fixed : ∀ r ∈ definedIn ops, rename r = r
  fresh : ∀ r ∈ definedIn ops, ∀ x, rename x = r → x = r
  current_fresh : ∀ r ∈ definedIn ops, ∀ g, current g ≠ r

namespace Simulates

variable {op : BlockOp α} {ops : List (BlockOp α)} {live : Value → Prop} {tracked : Nat → Prop}
  {rename : Value → Value} {current : Nat → Value} {s t : State α}

variable {result : Value} {g : Nat}

theorem define (h : Simulates (op :: ops) live tracked rename current s t) (hop : op.results = [result])
    (a : α) (caches : Nat → List α) : Simulates ops live tracked rename current
      ⟨update s.values result a, s.gradients, caches⟩
      ⟨update t.values result a, t.gradients, caches⟩ := by
  have hres : result ∈ definedIn (op :: ops) :=
    mem_definedIn_cons.mpr (.inl (hop ▸ mem_cons_self))
  refine ⟨fun x hx => ?_, fun g hg => ?_, rfl, fun r hr => h.fixed r ?_, fun r hr => h.fresh r ?_,
    fun r hr => h.current_fresh r ?_⟩
  · by_cases heq : x = result
    · rw [heq, h.fixed result hres]
      simp only [update_self]
    · have hne : rename x ≠ result := fun hrename => heq (h.fresh result hres x hrename)
      simp only [update_of_ne heq, update_of_ne hne]
      exact h.values x hx
  · simp only [update_of_ne (h.current_fresh result hres g)]
    exact h.gradients g hg
  all_goals exact mem_definedIn_cons.mpr (.inr hr)

theorem skip (h : Simulates (op :: ops) live tracked rename current s t) (caches : Nat → List α) :
    Simulates ops live tracked rename current ⟨s.values, s.gradients, caches⟩
      ⟨t.values, t.gradients, caches⟩ :=
  ⟨h.values, h.gradients, rfl, fun r hr => h.fixed r (mem_definedIn_cons.mpr (.inr hr)),
    fun r hr => h.fresh r (mem_definedIn_cons.mpr (.inr hr)),
    fun r hr => h.current_fresh r (mem_definedIn_cons.mpr (.inr hr))⟩

theorem get (h : Simulates (.get result g :: ops) live tracked rename current s t)
    (hssa : Ssa (.get result g :: ops)) (hg : tracked g) :
    Simulates ops live tracked (update rename result (current g)) current
      ⟨update s.values result (s.gradients g), s.gradients, s.caches⟩ t := by
  have hne : ∀ r ∈ definedIn ops, r ≠ result := fun r hr heq =>
    (notMem_of_ssa hssa hr).2 (heq ▸ mem_cons_self)
  have hcons : ∀ r ∈ definedIn ops, r ∈ definedIn (.get result g :: ops) :=
    fun r hr => mem_definedIn_cons.mpr (.inr hr)
  refine ⟨fun x hx => ?_, h.gradients, h.caches, fun r hr => ?_, fun r hr x hx => ?_,
    fun r hr => h.current_fresh r (hcons r hr)⟩
  · by_cases heq : x = result
    · simp only [heq, update_self]
      exact h.gradients g hg
    · simp only [update_of_ne heq]
      exact h.values x hx
  · rw [update_of_ne (hne r hr), h.fixed r (hcons r hr)]
  · by_cases heq : x = result
    · rw [heq, update_self] at hx
      exact absurd hx (h.current_fresh r (hcons r hr) g)
    · rw [update_of_ne heq] at hx
      exact h.fresh r (hcons r hr) x hx

theorem set {value : Value} (h : Simulates (.set g value :: ops) live tracked rename current s t)
    (hssa : Ssa (.set g value :: ops)) (hval : live value) :
    Simulates ops live (fun g' => g' = g ∨ tracked g') rename
      (update current g (rename value))
      ⟨s.values, update s.gradients g (s.values value), s.caches⟩ t := by
  have hcons : ∀ r ∈ definedIn ops, r ∈ definedIn (.set g value :: ops) :=
    fun r hr => mem_definedIn_cons.mpr (.inr hr)
  refine ⟨h.values, fun g' hg' => ?_, h.caches, fun r hr => h.fixed r (hcons r hr),
    fun r hr => h.fresh r (hcons r hr), fun r hr g' hg' => ?_⟩
  · by_cases heq : g' = g
    · simp only [heq, update_self]
      exact h.values value hval
    · simp only [update_of_ne heq]
      exact h.gradients g' (hg'.resolve_left heq)
  · by_cases heq : g' = g
    · rw [heq, update_self] at hg'
      obtain rfl := h.fresh r (hcons r hr) value hg'
      exact (notMem_of_ssa hssa hr).1 mem_cons_self
    · rw [update_of_ne heq] at hg'
      exact h.current_fresh r (hcons r hr) g' hg'

theorem exists_set_of_ne {op : BlockOp α} (hop : ∀ v, .set g v ≠ op) (h : ∃ v, .set g v ∈ op :: ops) :
    ∃ v, .set g v ∈ ops := by
  obtain ⟨v, hv⟩ := h
  exact ⟨v, (mem_cons.mp hv).resolve_left (hop v)⟩

/-- Running the promoted block: the values agree, the gradients end with the values they have, and
the values pushed are the same. -/
theorem run {known : List Nat} {s' : State α} (h : Simulates ops live tracked rename current s t) (hssa : Ssa ops)
    (hlive : ∀ op ∈ ops, ∀ x ∈ op.operands, live x) (hknown : ∀ g ∈ known, tracked g)
    (hgets : ∀ g ∈ getsFirst ops known, tracked g) (hrun : runBlock ops s = some s') :
    ∃ t', runBlock (promote ops rename current).ops t = some t' ∧ t'.gradients = t.gradients ∧ t'.caches = s'.caches ∧
      (∀ x, live x → t'.values ((promote ops rename current).rename x) = s'.values x) ∧
      (∀ g, (tracked g ∨ ∃ v, .set g v ∈ ops) → t'.values ((promote ops rename current).current g) = s'.gradients g) ∧
      ∀ c u, (c, u) ∈ pushes ops → ∃ v, (c, v) ∈ pushes (promote ops rename current).ops ∧
        t'.values v = s'.values u := by
  induction ops generalizing rename current s t tracked known with
  | nil =>
    cases hrun
    refine ⟨t, rfl, rfl, h.caches, h.values, fun g hg => h.gradients g (hg.resolve_right ?_), ?_⟩
    · rintro ⟨_, ⟨⟩⟩
    · rintro _ _ ⟨⟩
  | cons op ops ih =>
    obtain ⟨s₁, hexec, hrest⟩ := runBlock_cons_eq_some.mp hrun
    obtain ⟨hlive₁, hlive'⟩ := forall_mem_cons.mp hlive
    have hssa' : Ssa ops := (pairwise_cons.mp hssa).2
    cases op with
    | get result g =>
      cases hexec
      have hg : tracked g ∧ ∀ g' ∈ getsFirst ops known, tracked g' := by
        rw [getsFirst] at hgets
        split at hgets
        · rename_i hin
          exact ⟨hknown g hin, hgets⟩
        · exact forall_mem_cons.mp hgets
      obtain ⟨t', hrun', hgradients, hcaches, hvals, hcurrent, hpushes⟩ :=
        ih (h.get hssa hg.1) hssa' hlive' hknown hg.2 hrest
      refine ⟨t', hrun', hgradients, hcaches, hvals, fun g' hg' => hcurrent g' ?_, hpushes⟩
      exact hg'.imp_right (exists_set_of_ne (by rintro _ ⟨⟩))
    | set g value =>
      cases hexec
      have hknown' : ∀ g' ∈ g :: known, g' = g ∨ tracked g' :=
        forall_mem_cons.mpr ⟨.inl rfl, fun g' hg' => .inr (hknown g' hg')⟩
      obtain ⟨t', hrun', hgradients, hcaches, hvals, hcurrent, hpushes⟩ :=
        ih (h.set hssa (hlive₁ value mem_cons_self)) hssa' hlive' hknown'
          (fun g' hg' => .inr (hgets g' hg')) hrest
      refine ⟨t', hrun', hgradients, hcaches, hvals, fun g' hg' => hcurrent g' ?_, hpushes⟩
      rcases hg' with hg' | ⟨v, hv⟩
      · exact .inl (.inr hg')
      · rcases mem_cons.mp hv with heq | hv
        · exact .inl (.inl (BlockOp.set.inj heq).1)
        · exact .inr ⟨v, hv⟩
    | push c value =>
      cases hexec
      have hcontent : t.values (rename value) = s.values value :=
        h.values value (hlive₁ value mem_cons_self)
      obtain ⟨t', hrun', hgradients, hcaches, hvals, hcurrent, hpushes⟩ :=
        ih (h.skip (update s.caches c (s.values value :: s.caches c))) hssa' hlive' hknown
          hgets hrest
      refine ⟨t', ?_, hgradients, hcaches, hvals, fun g' hg' => hcurrent g' ?_, fun c' u hu => ?_⟩
      · rw [promote, runBlock, BlockOp.exec, bind_some, hcontent, h.caches]
        exact hrun'
      · exact hg'.imp_right (exists_set_of_ne (by rintro _ ⟨⟩))
      · rcases mem_cons.mp hu with heq | hu
        · obtain ⟨rfl, rfl⟩ := Prod.mk.inj heq
          refine ⟨rename u, mem_cons_self, ?_⟩
          have hu : u ∉ definedIn ops := fun hin => (notMem_of_ssa hssa hin).1 mem_cons_self
          have hrename : rename u ∉ definedIn (promote ops rename current).ops := by
            intro hin
            have hin := definedIn_promote hin
            have hfresh := h.fresh _ (mem_definedIn_cons.mpr (.inr hin)) u rfl
            exact hu (hfresh ▸ hin)
          rw [runBlock_values hrun' hrename, runBlock_values hrest hu]
          exact hcontent
        · obtain ⟨v, hv, hval⟩ := hpushes c' u hu
          exact ⟨v, mem_cons_of_mem _ hv, hval⟩
    | pure result operands fn =>
      cases hexec
      have hops : (operands.map rename).map t.values = operands.map s.values := by
        rw [List.map_map]
        exact map_congr_left fun x hx => h.values x (hlive₁ x hx)
      obtain ⟨t', hrun', hgradients, hcaches, hvals, hcurrent, hpushes⟩ :=
        ih (h.define rfl (fn (operands.map s.values)) s.caches) hssa' hlive' hknown hgets hrest
      refine ⟨t', ?_, hgradients, hcaches, hvals, fun g' hg' => hcurrent g' ?_, hpushes⟩
      · rw [promote, runBlock, BlockOp.exec, bind_some, hops, h.caches]
        exact hrun'
      · exact hg'.imp_right (exists_set_of_ne (by rintro _ ⟨⟩))
    | pop result c =>
      rw [BlockOp.exec] at hexec
      split at hexec
      · cases hexec
      · rename_i a rest hcache
        cases hexec
        obtain ⟨t', hrun', hgradients, hcaches, hvals, hcurrent, hpushes⟩ :=
          ih (h.define rfl a (update s.caches c rest)) hssa' hlive' hknown hgets hrest
        refine ⟨t', ?_, hgradients, hcaches, hvals, fun g' hg' => hcurrent g' ?_, hpushes⟩
        · rw [promote, runBlock, BlockOp.exec, h.caches, hcache, bind_some]
          exact hrun'
        · exact hg'.imp_right (exists_set_of_ne (by rintro _ ⟨⟩))

end Simulates

end EnzymeJax
