import Mathlib.Algebra.Order.BigOperators.Group.Finset
import Mathlib.Data.Fintype.Basic
import Mathlib.Tactic.Common

/-!
# Solvers of equations between facts

Every value has a fact. A visit of a value meets its fact with what those of other values imply. Values are visited
in any order, until no visit changes a fact.
-/

open Function List

structure Solver (V A : Type*) where
  initial : V → A
  transfer : V → Option ((V → A) → A)
  meet : A → A → A

namespace Solver

variable {V A : Type*} [DecidableEq V] (solver : Solver V A)

def visit (s : V → A) (v : V) : V → A :=
  match solver.transfer v with
  | some f => update s v (solver.meet (s v) (f s))
  | none => s

def run (visits : List V) : V → A := visits.foldl solver.visit solver.initial

/-- No visit changes a fact. -/
def Settled (s : V → A) : Prop := ∀ v, solver.visit s v = s

variable {solver} {s : V → A} {u v : V} {f : (V → A) → A}

theorem visit_of_transfer (h : solver.transfer v = some f) :
    solver.visit s v = update s v (solver.meet (s v) (f s)) := by
  rw [visit, h]

theorem Settled.eq_meet (hs : solver.Settled s) (h : solver.transfer v = some f) : s v = solver.meet (s v) (f s) := by
  have hv := hs v
  rwa [visit_of_transfer h, update_eq_self_iff, eq_comm] at hv

theorem run_concat (visits : List V) (v : V) :
    solver.run (visits ++ [v]) = solver.visit (solver.run visits) v := foldl_concat ..

/-- What holds of the facts at the start and after a meet holds after any visits. -/
theorem run_induction {P : V → A → Prop} (hinitial : ∀ v, P v (solver.initial v))
    (hmeet : ∀ s v f, (∀ u, P u (s u)) → solver.transfer v = some f → P v (solver.meet (s v) (f s)))
    (visits : List V) (v : V) : P v (solver.run visits v) := by
  induction visits using reverseRecOn generalizing v with
  | nil => exact hinitial v
  | append_singleton visits u ih =>
    rw [run_concat]
    cases htransfer : solver.transfer u with
    | none =>
      rw [visit, htransfer]
      exact ih v
    | some f =>
      rw [visit_of_transfer htransfer]
      by_cases hvu : v = u
      · subst hvu
        rw [update_self]
        exact hmeet _ v f ih htransfer
      · rw [update_of_ne hvu]
        exact ih v

theorem run_of_none (h : solver.transfer v = none) (visits : List V) : solver.run visits v = solver.initial v :=
  run_induction (P := fun v a => solver.transfer v = none → a = solver.initial v) (fun _ _ => rfl)
    (fun _ v f _ hf h => by cases hf.symm.trans h) visits v h

/-- Where the values that a transfer looks at come before its own, what it preserves holds of a settled state. -/
theorem Settled.induction (hs : solver.Settled s) {P : V → A → Prop} {before : V → V → Prop}
    (hwf : WellFounded before) (hnone : ∀ v, solver.transfer v = none → P v (s v))
    (htransfer : ∀ v f, solver.transfer v = some f → (∀ u, before u v → P u (s u)) → P v (solver.meet (s v) (f s)))
    (v : V) : P v (s v) := by
  induction v using hwf.induction with
  | _ v ih =>
    cases hf : solver.transfer v with
    | none => exact hnone v hf
    | some f =>
      rw [hs.eq_meet hf]
      exact htransfer v f hf ih

variable [Fintype V] {μ : A → Nat} {bound : V → Nat}

section

variable (hμ : ∀ a b, a ≠ solver.meet a b → μ a < μ (solver.meet a b))

include hμ

theorem sum_lt_of_visit (h : solver.visit s v ≠ s) :
    ∑ u, μ (s u) < ∑ u, μ (solver.visit s v u) := by
  cases hf : solver.transfer v with
  | none =>
    rw [visit, hf] at h
    exact absurd rfl h
  | some f =>
    rw [visit_of_transfer hf] at h ⊢
    have hlt := hμ _ _ fun heq => h (update_eq_self_iff.mpr heq.symm)
    refine Finset.sum_lt_sum (fun u _ => ?_) ⟨v, Finset.mem_univ v, by rwa [update_self]⟩
    by_cases huv : u = v
    · subst huv
      rw [update_self]
      exact hlt.le
    · rw [update_of_ne huv]

/-- Where each change of a fact raises a bounded measure, no more changes than its bounds have room for are left
after any visits. -/
theorem settles (hbound : ∀ visits v, μ (solver.run visits v) ≤ bound v) (visits : List V) :
    ∃ more : List V, more.length ≤ ∑ v, bound v ∧ solver.Settled (solver.run (visits ++ more)) := by
  have hnext : ∀ visits v, solver.visit (solver.run visits) v ≠ solver.run visits →
      ∑ u, μ (solver.run visits u) < ∑ u, μ (solver.run (visits ++ [v]) u) := fun visits v h =>
    run_concat visits v ▸ sum_lt_of_visit hμ h
  suffices h : ∀ n visits, ∑ v, bound v - ∑ v, μ (solver.run visits v) = n →
      ∃ more : List V, more.length ≤ n ∧ solver.Settled (solver.run (visits ++ more)) by
    obtain ⟨more, hmore, hsettled⟩ := h _ visits rfl
    exact ⟨more, hmore.trans (Nat.sub_le _ _), hsettled⟩
  intro n
  induction n using Nat.strong_induction_on with
  | _ n ih =>
    intro visits hn
    by_cases hs : solver.Settled (solver.run visits)
    · exact ⟨[], Nat.zero_le _, by rwa [append_nil]⟩
    · obtain ⟨v, hne⟩ := not_forall.mp hs
      have hlt := hnext visits v hne
      have hle := Finset.sum_le_sum fun u (_ : u ∈ Finset.univ) => hbound (visits ++ [v]) u
      obtain ⟨more, hmore, hdone⟩ := ih _ (by omega) (visits ++ [v]) rfl
      exact ⟨v :: more, by rw [length_cons]; omega, by rwa [append_assoc] at hdone⟩

end

end Solver
