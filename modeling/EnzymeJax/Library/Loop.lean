import Mathlib.Data.Int.Order.Basic
import Mathlib.Logic.Function.Iterate
import Mathlib.Tactic.Common

/-!
# While loops and counted loops

A while loop over a state, run with fuel, and the loop that counts a variable up by one to a limit. A body may fail,
so it returns an option. A loop's result does not depend on the fuel, a path of states along which the test
holds is a run, and a counted loop of `n` iterations is a path of length `n`.
-/

namespace Loop

open Option

variable {σ : Type*}

/-- `while cond s do s ← body s`, with `none` when the fuel is used up or the body fails. -/
def run (cond : σ → Bool) (body : σ → Option σ) : Nat → σ → Option σ
  | 0, _ => none
  | fuel + 1, s => if cond s then (body s).bind (run cond body fuel) else some s

/-- The loop started in `s` ends, in `t`. -/
def Returns (cond : σ → Bool) (body : σ → Option σ) (s t : σ) : Prop :=
  ∃ fuel, run cond body fuel s = some t

section While

variable {cond : σ → Bool} {body : σ → Option σ} {s s' t t' : σ}

theorem run_succ (cond : σ → Bool) (body : σ → Option σ) (fuel : Nat) (s : σ) :
    run cond body (fuel + 1) s = if cond s then (body s).bind (run cond body fuel) else some s :=
  rfl

variable {fuel k m : Nat}

theorem run_mono {more : Nat} (hle : fuel ≤ more) (h : run cond body fuel s = some t) :
    run cond body more s = some t := by
  induction fuel generalizing more s with
  | zero => simp [run] at h
  | succ fuel ih =>
    obtain ⟨more, rfl⟩ : ∃ m, more = m + 1 := ⟨more - 1, by omega⟩
    rw [run_succ] at h ⊢
    split at h
    · rename_i hcond
      rw [if_pos hcond]
      obtain ⟨mid, hbody, hrest⟩ := bind_eq_some_iff.mp h
      rw [hbody]
      exact ih (by omega) hrest
    · rename_i hcond
      rw [if_neg hcond]
      exact h

theorem run_of_path (path : Nat → σ) {n : Nat} (hfuel : n < fuel)
    (hstep : ∀ k < n, cond (path k) = true ∧ body (path k) = some (path (k + 1)))
    (hend : cond (path n) = false) : run cond body fuel (path 0) = some (path n) := by
  induction n generalizing path fuel with
  | zero =>
    obtain ⟨fuel, rfl⟩ : ∃ m, fuel = m + 1 := ⟨fuel - 1, by omega⟩
    rw [run_succ, hend]
    rfl
  | succ n ih =>
    obtain ⟨fuel, rfl⟩ : ∃ m, fuel = m + 1 := ⟨fuel - 1, by omega⟩
    obtain ⟨hcond, hbody⟩ := hstep 0 (by omega)
    rw [run_succ, if_pos hcond, hbody, bind_some]
    exact ih (fun k => path (k + 1)) (by omega) (fun k hk => hstep (k + 1) (by omega)) hend

theorem run_of_measure {P : σ → Prop} (μ : σ → Nat)
    (hstep : ∀ s, P s → cond s = true → ∃ s', body s = some s' ∧ P s' ∧ μ s' < μ s) (hs : P s)
    (hfuel : μ s < fuel) : ∃ t, run cond body fuel s = some t ∧ P t ∧ cond t = false := by
  induction fuel generalizing s with
  | zero => cases hfuel
  | succ fuel ih =>
    rw [run_succ]
    by_cases hcond : cond s = true
    · obtain ⟨s', hbody, hs', hlt⟩ := hstep s hs hcond
      rw [if_pos hcond, hbody]
      exact ih hs' (by omega)
    · rw [if_neg hcond]
      exact ⟨s, rfl, hs, Bool.eq_false_iff.mpr hcond⟩

theorem returns_of_path (path : Nat → σ) {n : Nat}
    (hstep : ∀ k < n, cond (path k) = true ∧ body (path k) = some (path (k + 1)))
    (hend : cond (path n) = false) : Returns cond body (path 0) (path n) :=
  ⟨n + 1, run_of_path path (Nat.lt_succ_self n) hstep hend⟩

/-- The state on entering iteration `n`. -/
def enters (cond : σ → Bool) (body : σ → Option σ) : Nat → σ → Option σ
  | 0, s => some s
  | n + 1, s => if cond s then (body s).bind (enters cond body n) else none

/-- The loop runs `n` iterations and ends. -/
def steps (cond : σ → Bool) (body : σ → Option σ) (n : Nat) (s : σ) : Option σ :=
  (enters cond body n s).bind fun t => if cond t then none else some t

theorem enters_succ_eq_some {n : Nat} : enters cond body (n + 1) s = some t ↔
    ∃ s', cond s = true ∧ body s = some s' ∧ enters cond body n s' = some t := by
  rw [enters]
  by_cases hcond : cond s = true
  · rw [if_pos hcond, bind_eq_some_iff]
    simp only [hcond, true_and]
  · simp [hcond]

theorem enters_append {t' : σ} (h : enters cond body k s = some t) (h' : enters cond body m t = some t') :
    enters cond body (k + m) s = some t' := by
  induction k generalizing s with
  | zero =>
    cases h
    rwa [Nat.zero_add]
  | succ k ih =>
    obtain ⟨s', hcond, hbody, hrest⟩ := enters_succ_eq_some.mp h
    rw [Nat.add_right_comm]
    exact enters_succ_eq_some.mpr ⟨s', hcond, hbody, ih hrest⟩

theorem enters_succ_last {n : Nat} (h : enters cond body (n + 1) s = some t) :
    ∃ s', enters cond body n s = some s' ∧ cond s' = true ∧ body s' = some t := by
  induction n generalizing s with
  | zero =>
    obtain ⟨s', hcond, hbody, hrest⟩ := enters_succ_eq_some.mp h
    cases hrest
    exact ⟨s, rfl, hcond, hbody⟩
  | succ n ih =>
    obtain ⟨s', hcond, hbody, hrest⟩ := enters_succ_eq_some.mp h
    obtain ⟨u, hu, hlast⟩ := ih hrest
    exact ⟨u, enters_succ_eq_some.mpr ⟨s', hcond, hbody, hu⟩, hlast⟩

theorem exists_enters {n : Nat} (h : enters cond body n s = some t) (hk : k ≤ n) :
    ∃ t', enters cond body k s = some t' := by
  induction n generalizing k s with
  | zero =>
    obtain rfl := Nat.le_zero.mp hk
    exact ⟨s, rfl⟩
  | succ n ih =>
    cases k with
    | zero => exact ⟨s, rfl⟩
    | succ k =>
      obtain ⟨s', hcond, hbody, hrest⟩ := enters_succ_eq_some.mp h
      obtain ⟨t', ht'⟩ := ih hrest (Nat.le_of_succ_le_succ hk)
      exact ⟨t', enters_succ_eq_some.mpr ⟨s', hcond, hbody, ht'⟩⟩

theorem steps_eq_some {n : Nat} :
    steps cond body n s = some t ↔ enters cond body n s = some t ∧ cond t = false := by
  rw [steps, bind_eq_some_iff]
  constructor
  · intro h
    obtain ⟨t', henter, hend⟩ := h
    split at hend
    · cases hend
    · rename_i hcond
      cases hend
      exact ⟨henter, Bool.eq_false_iff.mpr hcond⟩
  · intro h
    exact ⟨t, h.1, by rw [h.2]; rfl⟩

section

variable {τ : Type*} {cond' : τ → Bool} {body' : τ → Option τ} {R : Nat → σ → τ → Prop} {n : Nat}
  (htest : ∀ k s u, k ≤ n → R k s u → cond' u = cond s)
  (hstep : ∀ k s u s', k < n → R k s u → cond s = true → body s = some s' → ∃ u', body' u = some u' ∧ R (k + 1) s' u')
  {s : σ} {u : τ}

include htest hstep

theorem enters_simulates {t : σ} (hR : R k s u) (hle : k + m ≤ n) (h : enters cond body m s = some t) :
    ∃ v, enters cond' body' m u = some v ∧ R (k + m) t v := by
  induction m generalizing k s u with
  | zero =>
    cases h
    exact ⟨u, rfl, hR⟩
  | succ m ih =>
    obtain ⟨s', hcond, hbody, hrest⟩ := enters_succ_eq_some.mp h
    obtain ⟨u', hbody', hR'⟩ := hstep k s u s' (by omega) hR hcond hbody
    obtain ⟨v, henter, hRv⟩ := ih hR' (by omega) hrest
    refine ⟨v, enters_succ_eq_some.mpr ⟨u', (htest k s u (by omega) hR).trans hcond, hbody', henter⟩, ?_⟩
    rwa [show k + (m + 1) = k + 1 + m by omega]

theorem steps_simulates {t : σ} (hR : R 0 s u) (h : steps cond body n s = some t) :
    ∃ v, steps cond' body' n u = some v ∧ R n t v := by
  obtain ⟨henter, hend⟩ := steps_eq_some.mp h
  obtain ⟨v, henter', hRv⟩ := enters_simulates htest hstep hR (by omega) henter
  rw [Nat.zero_add] at hRv
  exact ⟨v, steps_eq_some.mpr ⟨henter', (htest n t v (Nat.le_refl n) hRv).trans hend⟩, hRv⟩

end

end While

/-! ### Counted loops -/

/-- `n` iterations of a loop whose counter goes up by one from `i`. -/
def iterate (body : Int → σ → Option σ) : Nat → Int → σ → Option σ
  | 0, _, s => some s
  | n + 1, i, s => (body i s).bind (iterate body n (i + 1))

/-- `for i = lo; i < hi; i++`. -/
def forLoop (lo hi : Int) (body : Int → σ → Option σ) (s : σ) : Option σ :=
  iterate body (hi - lo).toNat lo s

section Counted

variable {body body' : Int → σ → Option σ}

theorem iterate_succ (n : Nat) (i : Int) (s : σ) :
    iterate body (n + 1) i s = (body i s).bind (iterate body n (i + 1)) := rfl

theorem iterate_path (path : Nat → σ) {n : Nat} {i : Int}
    (hstep : ∀ k < n, body (i + k) (path k) = some (path (k + 1))) : iterate body n i (path 0) = some (path n) := by
  induction n generalizing i path with
  | zero => rfl
  | succ n ih =>
    have hfirst : body i (path 0) = some (path 1) := by simpa using hstep 0 (by omega)
    rw [iterate_succ, hfirst, bind_some]
    refine ih (fun k => path (k + 1)) fun k hk => ?_
    have hnext := hstep (k + 1) (by omega)
    rwa [show i + ((k + 1 : Nat) : Int) = i + 1 + k by push_cast; omega] at hnext

theorem forLoop_path (path : Nat → σ) {n : Nat} (hstep : ∀ k < n, body k (path k) = some (path (k + 1))) :
    forLoop 0 n body (path 0) = some (path n) := by
  rw [forLoop, Int.sub_zero, Int.toNat_natCast]
  exact iterate_path path fun k hk => by rw [Int.zero_add, hstep k hk]

end Counted

/-! ### Folds -/

theorem foldl_rule {τ : Type*} {f : σ → τ → σ} {P : σ → Prop} {Q : τ → σ → Prop} {l : List τ}
    (hstep : ∀ x ∈ l, ∀ s, P s → P (f s x) ∧ Q x (f s x) ∧ ∀ y, Q y s → Q y (f s x)) {s : σ} (hs : P s) :
    P (l.foldl f s) ∧ (∀ x ∈ l, Q x (l.foldl f s)) ∧ ∀ y, Q y s → Q y (l.foldl f s) := by
  induction l generalizing s with
  | nil => exact ⟨hs, by simp, fun _ h => h⟩
  | cons x l ih =>
    obtain ⟨hP, hQ, hkeep⟩ := hstep x List.mem_cons_self s hs
    obtain ⟨hP', hQ', hkeep'⟩ := ih (fun y hy => hstep y (List.mem_cons_of_mem x hy)) hP
    refine ⟨hP', fun y hy => ?_, fun y hy => hkeep' y (hkeep y hy)⟩
    rcases List.mem_cons.mp hy with rfl | hmem
    · exact hkeep' y hQ
    · exact hQ' y hmem

end Loop
