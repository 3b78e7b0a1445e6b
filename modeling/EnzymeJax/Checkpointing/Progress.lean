import EnzymeJax.Library.Loop
import Mathlib.Data.Nat.Choose.Basic
import Mathlib.Tactic

/-!
# The binomial progress and the schedule it makes

`binomialProgress` says how far to run before the next checkpoint when `n` iterations are left and `s` checkpoints
are free: the largest `j` with `C(j + s - 1, j) ≤ n`. With fewer iterations than checkpoints there is no such
`j` from 1 on, and the progress is zero.
-/

namespace EnzymeJax

/-- One step of the search: the next `j` and its binomial coefficient. -/
def progressSearch (s : Int) (p : Int × Int) : Option (Int × Int) :=
  some (p.1 + 1, (p.2 * (p.1 + 1 + s - 1)).tdiv (p.1 + 1))

/-- `none` is the failed assertion that a checkpoint is available. -/
def binomialProgress (n s : Int) : Option Int :=
  if s ≤ 0 then none
  else if s = 1 ∨ n = 1 then some 1
  else (Loop.run (fun p => decide (p.2 < n)) (progressSearch s) (n.toNat + 1) (1, s)).map
    fun p => if p.2 = n then p.1 else p.1 - 1

/-- The progress for `s` free checkpoints as a number of iterations. -/
def progress (n : Int) (s : Nat) : Nat := ((binomialProgress n s).getD 0).toNat

/-! ### The search -/

theorem choose_step (j s : Nat) : (j + s).choose j * (j + s + 1) = (j + 1 + s).choose (j + 1) * (j + 1) := by
  rw [mul_comm, Nat.add_one_mul_choose_eq, show j + s + 1 = j + 1 + s by omega]

theorem le_choose (j s : Nat) : j + 1 + (s + 1) ≤ (j + 1 + (s + 1)).choose (j + 1) := by
  induction j with
  | zero => simp
  | succ j ih =>
    have hpos : 0 < (j + 1 + (s + 1)).choose (j + 1 + 1) := Nat.choose_pos (by omega)
    rw [show j + 1 + 1 + (s + 1) = j + 1 + (s + 1) + 1 by omega, Nat.choose_succ_succ']
    omega

/-- Where the search for `s + 1` checkpoints is after `m` steps. -/
def searchAt (s m : Nat) : Int × Int := ((m + 1 : Nat), ((m + 1 + s).choose (m + 1) : Nat))

theorem progressSearch_searchAt (s m : Nat) :
    progressSearch ((s + 1 : Nat) : Int) (searchAt s m) = some (searchAt s (m + 1)) := by
  have hnum : ((m + 1 + s).choose (m + 1) : Int) * (((m + 1 : Nat) : Int) + 1 + ((s + 1 : Nat) : Int) - 1) =
      ((m + 1 + 1 + s).choose (m + 1 + 1) : Nat) * ((m + 1 + 1 : Nat) : Int) := by
    rw [show ((m + 1 : Nat) : Int) + 1 + ((s + 1 : Nat) : Int) - 1 = ((m + 1 + s + 1 : Nat) : Int) by
      omega]
    exact_mod_cast choose_step (m + 1) s
  have hden : ((m + 1 : Nat) : Int) + 1 = ((m + 1 + 1 : Nat) : Int) := by omega
  simp only [progressSearch, searchAt]
  rw [hnum, hden, Int.mul_tdiv_cancel _ (by omega)]

theorem exists_search {n : Int} (hn : n ≠ 1) (s : Nat) :
    ∃ m : Nat, (∀ k < m, ((k + 1 + (s + 1)).choose (k + 1) : Int) < n) ∧ n ≤ ((m + 1 + (s + 1)).choose (m + 1) : Nat) ∧
      binomialProgress n ((s + 2 : Nat) : Int) =
        some ((if ((m + 1 + (s + 1)).choose (m + 1) : Int) = n then m + 1 else m : Nat) : Int) := by
  have hgrow : n ≤ ((n.toNat + 1 + (s + 1)).choose (n.toNat + 1) : Nat) := by
    have := le_choose n.toNat s
    omega
  classical
  let hex : ∃ m : Nat, n ≤ ((m + 1 + (s + 1)).choose (m + 1) : Nat) := ⟨n.toNat, hgrow⟩
  have hbelow : ∀ k < Nat.find hex, ((k + 1 + (s + 1)).choose (k + 1) : Int) < n :=
    fun k hk => not_le.mp (Nat.find_min hex hk)
  refine ⟨Nat.find hex, hbelow, Nat.find_spec hex, ?_⟩
  have hrun : Loop.run (fun p : Int × Int => decide (p.2 < n))
      (progressSearch ((s + 1 + 1 : Nat) : Int)) (n.toNat + 1) (searchAt (s + 1) 0) =
      some (searchAt (s + 1) (Nat.find hex)) :=
    Loop.run_of_path (searchAt (s + 1)) (Nat.lt_succ_of_le (Nat.find_min' hex hgrow))
      (fun k hk => ⟨decide_eq_true (hbelow k hk), progressSearch_searchAt (s + 1) k⟩)
      (decide_eq_false (not_lt.mpr (Nat.find_spec hex)))
  have hinit : searchAt (s + 1) 0 = (1, ((s + 1 + 1 : Nat) : Int)) := by
    simp only [searchAt, zero_add, Nat.choose_one_right, Nat.cast_one, add_comm 1 (s + 1)]
  rw [hinit] at hrun
  rw [binomialProgress, if_neg (by omega), if_neg (by omega), hrun, Option.map_some, searchAt]
  split <;> simp

/-! ### The progress -/

theorem progress_single (n : Int) : progress n 1 = 1 := by
  simp [progress, binomialProgress]

theorem progress_one {s : Nat} (hs : 0 < s) : progress 1 s = 1 := by
  rw [progress, binomialProgress, if_neg (by omega), if_pos (.inr rfl)]
  rfl

theorem binomialProgress_eq (n : Int) {s : Nat} (hs : 0 < s) :
    binomialProgress n s = some (progress n s : Int) := by
  suffices ∃ p : Nat, binomialProgress n s = some (p : Int) by
    obtain ⟨p, hp⟩ := this
    rw [progress, hp, Option.getD_some, Int.toNat_natCast]
  by_cases hunit : s = 1 ∨ n = 1
  · exact ⟨1, by rw [binomialProgress, if_neg (by omega), if_pos (by omega)]; rfl⟩
  · obtain ⟨s, rfl⟩ : ∃ t, s = t + 2 := ⟨s - 2, by omega⟩
    obtain ⟨m, -, -, hp⟩ := exists_search (not_or.mp hunit).2 s
    exact ⟨_, hp⟩

theorem progress_of_lt {n : Int} {s : Nat} (hs : 2 ≤ s) (hn : n ≠ 1) (hlt : n < s) :
    progress n s = 0 := by
  obtain ⟨s, rfl⟩ : ∃ t, s = t + 2 := ⟨s - 2, by omega⟩
  obtain ⟨m, hbelow, -, hp⟩ := exists_search hn s
  have hzero : m = 0 := by
    by_contra hm
    have hfirst := hbelow 0 (by omega)
    rw [zero_add, Nat.choose_one_right] at hfirst
    omega
  subst hzero
  rw [zero_add, Nat.choose_one_right, if_neg (by omega)] at hp
  rw [progress, hp]
  rfl

theorem progress_bounds {n s : Nat} (hs : 2 ≤ s) (hle : s ≤ n) :
    1 ≤ progress n s ∧ progress n s + s ≤ n + 1 := by
  obtain ⟨s, rfl⟩ : ∃ t, s = t + 2 := ⟨s - 2, by omega⟩
  obtain ⟨m, hbelow, hreach, hp⟩ := exists_search (n := n) (by omega) s
  have hprogress := congrArg (fun p => (p.getD 0).toNat) hp
  change progress n (s + 2) = _ at hprogress
  simp only [Option.getD_some, Int.toNat_natCast] at hprogress
  rw [hprogress]
  split
  · rename_i heq
    have hgrow := le_choose m s
    omega
  · rename_i hne
    rcases m with _ | m
    · rw [zero_add, Nat.choose_one_right] at hreach hne
      omega
    · have hprev := hbelow m (by omega)
      have hgrow := le_choose m s
      omega

theorem progress_two {n : Nat} (hn : 2 ≤ n) : progress n 2 = n - 1 := by
  obtain ⟨m, hbelow, hreach, hp⟩ := exists_search (n := n) (by omega) 0
  have hcoeff : ∀ k : Nat, (k + 1 + (0 + 1)).choose (k + 1) = k + 2 := fun k => by
    rw [zero_add, Nat.choose_succ_self_right]
  rw [hcoeff] at hreach hp
  have hm : m + 2 = n := by
    rcases m with _ | m
    · omega
    · have hprev := hbelow m (by omega)
      rw [hcoeff] at hprev
      omega
  rw [if_pos (by omega)] at hp
  rw [progress, hp, Option.getD_some, Int.toNat_natCast]
  omega

end EnzymeJax
