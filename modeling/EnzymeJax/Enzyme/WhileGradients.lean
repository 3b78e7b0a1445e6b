import EnzymeJax.Enzyme.While

/-!
# Gradients carried through a loop

The loop with its gradients as carried values computes the same: on entering an iteration, the
carried value of a gradient is what the cell holds in the original loop.
-/

namespace EnzymeJax

open List
open Option hiding or_assoc

variable {α : Type*}

/-- A value created for a gradient. -/
def Value.IsGradient : Value → Bool
  | outerGet _ | gradient _ | gradientArg _ => true
  | _ => false

namespace LoopOp

/-- All the values of the loop satisfy `P`. -/
structure Over (P : Value → Prop) (op : LoopOp α) : Prop where
  operands : ∀ x ∈ op.operands, P x
  args : ∀ x ∈ op.args, P x
  condUses : ∀ x ∈ op.condUses, P x
  uses : ∀ o ∈ op.body, ∀ x ∈ o.operands, P x
  definedIn : ∀ x ∈ definedIn op.body, P x
  returns : ∀ x ∈ op.returns, P x
  results : ∀ x ∈ op.results, P x

structure WellFormed (op : LoopOp α) : Prop where
  ssa : Ssa op.body
  args_nodup : op.args.Nodup
  args_fresh : ∀ x ∈ op.args, x ∉ EnzymeJax.definedIn op.body
  operands_length : op.operands.length = op.args.length
  returns_length : op.returns.length = op.args.length
  results_length : op.results.length = op.args.length

end LoopOp

/-! ### Lists of gradients -/

variable {g : Nat}

theorem mem_setVector {l : List Nat} : g ∈ setVector l ↔ g ∈ l := by
  have hfold : ∀ gs : List Nat, g ∈ l.foldl (fun gs g => if g ∈ gs then gs else gs ++ [g]) gs ↔ g ∈ gs ∨ g ∈ l := by
    induction l with
    | nil => exact fun gs => by simp only [foldl_nil, not_mem_nil, or_false]
    | cons g' l ih =>
      intro gs
      rw [foldl_cons, ih, mem_cons, ← or_assoc]
      refine or_congr_left ?_
      by_cases hmem : g' ∈ gs
      · rw [if_pos hmem]
        refine (or_iff_left_of_imp fun heq => ?_).symm
        exact heq ▸ hmem
      · rw [if_neg hmem, mem_append, mem_singleton]
  exact (hfold []).trans (or_iff_right not_mem_nil)

theorem mem_getGradients {ops : List (BlockOp α)} {known : List Nat} (hg : g ∈ getsFirst ops known) :
    g ∈ getGradients ops := by
  induction ops generalizing known with
  | nil => cases hg
  | cons op ops ih =>
    cases op with
    | pure result operands fn | push c value | pop result c | set g' value => exact ih hg
    | get result g' =>
      rw [getsFirst] at hg
      split at hg
      · exact mem_cons_of_mem _ (ih hg)
      · rcases mem_cons.mp hg with rfl | hg
        · exact mem_cons_self
        · exact mem_cons_of_mem _ (ih hg)

namespace LoopOp

variable {op : LoopOp α} {p q : List α × State α}

theorem mem_updatedGradients : g ∈ op.updatedGradients ↔ ∃ v, .set g v ∈ op.body :=
  mem_setVector.trans mem_setGradients

/-- The original loop and the one with promoted gradients on entering an iteration. -/
structure Promotes (op : LoopOp α) (initial : Nat → α) (p q : List α × State α) : Prop where
  carried : q.1 = p.1 ++ op.updatedGradients.map p.2.gradients
  length : p.1.length = op.args.length
  values : ∀ x : Value, ¬x.IsGradient → q.2.values x = p.2.values x
  outer : ∀ g ∈ getGradients op.body, g ∉ op.updatedGradients → q.2.values (.outerGet g) = p.2.gradients g
  caches : q.2.caches = p.2.caches
  gradients : q.2.gradients = initial
  unchanged : ∀ g, g ∉ op.updatedGradients → p.2.gradients g = initial g

namespace Promotes

variable {initial : Nat → α}

section

variable (h : Promotes op initial p q)

include h

theorem enter_values {x : Value} (hx : ¬x.IsGradient) :
    (op.promoteGradients.op.enter q).values x = (op.enter p).values x := by
  change assign q.2.values (op.args ++ op.updatedGradients.map .gradientArg) q.1 x = assign p.2.values op.args p.1 x
  rw [h.carried, assign_append h.length.symm, assign_of_notMem]
  · exact assign_congr_at (h.values x hx) _ _
  · intro hin
    obtain ⟨g, -, rfl⟩ := mem_map.mp hin
    exact hx rfl

theorem enter_gradients (hover : op.Over fun x => ¬x.IsGradient)
    (hg : g ∈ op.updatedGradients ∨ g ∈ getGradients op.body) :
    (op.promoteGradients.op.enter q).values (op.gradientStart g) = p.2.gradients g := by
  change assign q.2.values (op.args ++ op.updatedGradients.map .gradientArg) q.1 _ = _
  rw [h.carried, assign_append h.length.symm, gradientStart]
  by_cases hupdated : g ∈ op.updatedGradients
  · rw [if_pos hupdated]
    exact assign_map .gradientArg _ hupdated (fun g' _ heq => Value.gradientArg.inj heq) _
  · rw [if_neg hupdated, assign_of_notMem, assign_of_notMem]
    · exact h.outer g (hg.resolve_left hupdated) hupdated
    · intro hin
      exact hover.args _ hin rfl
    · intro hin
      obtain ⟨g', -, heq⟩ := mem_map.mp hin
      cases heq

theorem simulates (hover : op.Over fun x => ¬x.IsGradient) : Simulates op.body (fun x => ¬x.IsGradient)
      (fun g => g ∈ op.updatedGradients ∨ g ∈ getGradients op.body) id op.gradientStart (op.enter p)
      (op.promoteGradients.op.enter q) where
  values _ hx := h.enter_values hx
  gradients _ hg := h.enter_gradients hover hg
  caches := h.caches
  fixed _ _ := rfl
  fresh _ _ _ hx := hx
  current_fresh r hr g heq := by
    refine hover.definedIn r hr ?_
    rw [← heq, gradientStart]
    split <;> rfl

theorem body (hwf : op.WellFormed) (hover : op.Over fun x => ¬x.IsGradient) {s : State α}
    (hrun : runBlock op.body (op.enter p) = some s) :
    ∃ t, runBlock op.promoteGradients.op.body (op.promoteGradients.op.enter q) = some t ∧
      t.gradients = initial ∧ t.caches = s.caches ∧
      (∀ x : Value, ¬x.IsGradient → t.values ((promote op.body id op.gradientStart).rename x) = s.values x) ∧
      (∀ g ∈ op.updatedGradients, t.values ((promote op.body id op.gradientStart).current g) = s.gradients g) ∧
      ∀ g, g ∉ op.updatedGradients → s.gradients g = p.2.gradients g := by
  obtain ⟨t, hrun', hgradients, hcaches, hvals, hcurrent, -⟩ :=
    (h.simulates hover).run hwf.ssa hover.uses (fun _ hg => absurd hg not_mem_nil)
      (fun _ (hg : _ ∈ getsFirst op.body []) => .inr (mem_getGradients hg)) hrun
  refine ⟨t, hrun', hgradients.trans h.gradients, hcaches, hvals,
    fun g hg => hcurrent g (.inl (.inl hg)), fun g hg => ?_⟩
  exact runBlock_gradients hrun fun v hv => hg (mem_updatedGradients.mpr ⟨v, hv⟩)

theorem test_eq (hover : op.Over fun x => ¬x.IsGradient) :
    op.promoteGradients.op.test q = op.test p := by
  refine congrArg op.cond (map_congr_left fun x hx => ?_)
  exact h.enter_values (hover.condUses x hx)

theorem iteration (hwf : op.WellFormed) (hover : op.Over fun x => ¬x.IsGradient) {p' : List α × State α}
    (hstep : op.iteration p = some p') :
    ∃ q', op.promoteGradients.op.iteration q = some q' ∧ Promotes op initial p' q' := by
  obtain ⟨s, hrun, rfl⟩ := map_eq_some_iff.mp hstep
  obtain ⟨t, hrun', hgradients, hcaches, hvals, hcurrent, hkept⟩ := h.body hwf hover hrun
  refine ⟨_, congrArg (Option.map _) hrun', ?_, ?_, h.values, fun g hget hg => ?_, hcaches,
    hgradients, fun g hg => (hkept g hg).trans (h.unchanged g hg)⟩
  · change (op.returns.map _ ++ op.updatedGradients.map _).map t.values = _
    rw [map_append, List.map_map, List.map_map]
    refine congrArg₂ _ (map_congr_left fun x hx => ?_) (map_congr_left hcurrent)
    exact hvals x (hover.returns x hx)
  · exact (length_map _).trans hwf.returns_length
  · exact (h.outer g hget hg).trans (hkept g hg).symm

end

end Promotes

theorem promoteGradients_before (op : LoopOp α) (hwf : op.WellFormed)
    (hover : op.Over fun x => ¬x.IsGradient) (s : State α) :
    ∃ t, runBlock op.promoteGradients.before s = some t ∧
      (∀ x : Value, ¬x.IsGradient → t.values x = s.values x) ∧ t.caches = s.caches ∧
      t.gradients = s.gradients ∧
      Promotes op s.gradients (op.operands.map s.values, s)
        (op.promoteGradients.op.operands.map t.values, t) := by
  obtain ⟨t, hrun, hgradients, hcaches, hread, hvals⟩ := runBlock_gets
    ((getGradients op.body).filter (· ∉ op.updatedGradients) ++ op.updatedGradients) s
  have hplain : ∀ x : Value, ¬x.IsGradient → t.values x = s.values x := by
    intro x hx
    refine hvals x fun g heq => hx ?_
    rw [heq]
    rfl
  refine ⟨t, hrun, hplain, hcaches, hgradients, ?_, ?_, hplain, fun g hget hg => ?_, hcaches,
    hgradients, fun _ _ => rfl⟩
  · change (op.operands ++ op.updatedGradients.map Value.outerGet).map t.values = _
    rw [map_append, List.map_map]
    refine congrArg₂ _ (map_congr_left fun x hx => hplain x (hover.operands x hx))
      (map_congr_left fun g hg => hread g (mem_append_right _ hg))
  · exact (length_map _).trans hwf.operands_length
  · exact hread g (mem_append_left _ (mem_filter.mpr ⟨hget, decide_eq_true hg⟩))

theorem promoteGradients_enters (hwf : op.WellFormed) (hover : op.Over fun x => ¬x.IsGradient) {n k : Nat}
    {s s' t : State α} (h : op.exec n s = some s') (hbefore : runBlock op.promoteGradients.before s = some t)
    (hk : k ≤ n) (henters : Loop.enters op.promoteGradients.op.test op.promoteGradients.op.iteration k
      (op.promoteGradients.op.operands.map t.values, t) = some q) :
    ∃ p, Loop.enters op.test op.iteration k (op.operands.map s.values, s) = some p ∧ Promotes op s.gradients p q := by
  obtain ⟨t', hbefore', -, -, -, hpromotes⟩ := promoteGradients_before op hwf hover s
  cases hbefore.symm.trans hbefore'
  obtain ⟨p', hsteps, rfl⟩ := map_eq_some_iff.mp h
  obtain ⟨p, hp⟩ := Loop.exists_enters (Loop.steps_eq_some.mp hsteps).1 hk
  obtain ⟨q', hq', hpq⟩ := Loop.enters_simulates (R := fun _ => Promotes op s.gradients) (n := n)
    (fun _ _ _ _ hR => hR.test_eq hover) (fun _ _ _ _ _ hR _ hit => hR.iteration hwf hover hit)
    hpromotes (show 0 + k ≤ n by omega) hp
  cases henters.symm.trans hq'
  exact ⟨p, hp, hpq⟩

/-- A run of the loop is a run of the loop with promoted gradients: the results are the same, and
the last values of the gradients are the contents of the cells. -/
theorem promoteGradients_exec (hwf : op.WellFormed) (hover : op.Over fun x => ¬x.IsGradient)
    {n : Nat} {s s' : State α} (h : op.exec n s = some s') :
    ∃ t t', runBlock op.promoteGradients.before s = some t ∧
      (∀ x : Value, ¬x.IsGradient → t.values x = s.values x) ∧ t.caches = s.caches ∧
      op.promoteGradients.op.exec n t = some t' ∧
      (∀ x : Value, ¬x.IsGradient → t'.values x = s'.values x) ∧ t'.caches = s'.caches ∧
      (∀ g, (if g ∈ op.updatedGradients then t'.values (.gradient g) else t'.gradients g) = s'.gradients g) ∧
      ∀ k < n, ∀ e, op.bodyEnd k s = some e → ∃ e', op.promoteGradients.op.bodyEnd k t = some e' ∧
          ∀ x : Value, ¬x.IsGradient → (∀ g, .get x g ∉ op.body) → e'.values x = e.values x := by
  obtain ⟨t, hbefore, hvals, hcaches, -, hpromotes⟩ := promoteGradients_before op hwf hover s
  have htest : ∀ k p q, k ≤ n → Promotes op s.gradients p q →
      op.promoteGradients.op.test q = op.test p := fun _ _ _ _ hR => hR.test_eq hover
  have hstep : ∀ k p q p', k < n → Promotes op s.gradients p q → op.test p = true → op.iteration p = some p' →
      ∃ q', op.promoteGradients.op.iteration q = some q' ∧ Promotes op s.gradients p' q' :=
    fun _ _ _ _ _ hR _ hit => hR.iteration hwf hover hit
  obtain ⟨p, hsteps, rfl⟩ := map_eq_some_iff.mp h
  obtain ⟨q, hsteps', hend⟩ :=
    Loop.steps_simulates (R := fun _ => Promotes op s.gradients) htest hstep hpromotes hsteps
  have hlen : op.results.length = p.1.length := hwf.results_length.trans hend.length.symm
  refine ⟨t, _, hbefore, hvals, hcaches, congrArg (Option.map _) hsteps', fun x hx => ?_,
    hend.caches, fun g => ?_, fun k hk e he => ?_⟩
  · change assign q.2.values (op.results ++ op.updatedGradients.map .gradient) q.1 x = _
    rw [hend.carried, assign_append hlen, assign_of_notMem]
    · exact assign_congr_at (hend.values x hx) _ _
    · intro hin
      obtain ⟨g, -, rfl⟩ := mem_map.mp hin
      exact hx rfl
  · by_cases hg : g ∈ op.updatedGradients
    · rw [if_pos hg]
      change assign q.2.values (op.results ++ op.updatedGradients.map .gradient) q.1 _ = _
      rw [hend.carried, assign_append hlen]
      exact assign_map .gradient _ hg (fun g' _ heq => Value.gradient.inj heq) _
    · rw [if_neg hg]
      exact (congrFun hend.gradients g).trans (hend.unchanged g hg).symm
  · obtain ⟨pk, henters, hrun⟩ := bind_eq_some_iff.mp he
    obtain ⟨qk, henters', hpk⟩ := Loop.enters_simulates (R := fun _ => Promotes op s.gradients)
      htest hstep hpromotes (show 0 + k ≤ n by omega) henters
    obtain ⟨e', hrun', -, -, hvalues', -⟩ := hpk.body hwf hover hrun
    refine ⟨e', bind_eq_some_iff.mpr ⟨qk, henters', hrun'⟩, fun x hx hget => ?_⟩
    rw [← hvalues' x hx, promote_rename hget]
    rfl

end LoopOp

end EnzymeJax
