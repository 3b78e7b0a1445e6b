import EnzymeJax.Checkpointing.Progress
import EnzymeJax.Library.IntType
import Mathlib.Order.Bounds.Basic

/-!
# The progress of constants

The progress of constants is folded by the same search in machine integers. Where already the first binomial
coefficient is above the number of steps, the search goes back from `j = 1` to zero.
-/

namespace EnzymeJax.BinomialProgressConstProp

open IntType Option

/-- One step of the search on `int64_t`. -/
def searchStep (s : Int) (p : Int × Int) : Option (Int × Int) := do
  let j ← int64 (p.1 + 1)
  let sum ← int64 (j + s)
  let factor ← int64 (sum - 1)
  let product ← int64 (p.2 * factor)
  some (j, product.tdiv j)

def binomialProgress (n s : Int) : Option Int :=
  if s ≤ 0 then none
  else if s = 1 ∨ n = 1 then some 1
  else (Loop.run (fun p => decide (p.2 < n)) (searchStep s) (n.toNat + 1) (1, s)).map
    fun p => if p.2 = n then p.1 else p.1 - 1

/-- The number of steps that `s` checkpoints can reverse with `j` evaluations of each. -/
def coefficient (s j : Nat) : Nat := (j + s - 1).choose j

/-- The products that the search forms are within `int64_t`. -/
def InRange (n s : Nat) : Prop :=
  n < 2 ^ 63 ∧ s < 2 ^ 63 ∧ ∀ j, 1 ≤ j → coefficient s j < n → coefficient s j * (j + s) < 2 ^ 63

/-- A schedule that advances by `r` makes progress, and no further than the coefficients allow. -/
structure Usable (n s : Nat) (r : Int) : Prop where
  pos : 1 ≤ r
  le : r ≤ n
  greatest : ∀ j, IsGreatest {j | 1 ≤ j ∧ coefficient s j ≤ n} j → r = (j : Nat)

/-- In every iteration the loop holds the coefficient of its `j`, and the division is exact. -/
structure Correct (n s : Nat) : Prop where
  invariant : ∀ (k : Nat) (p : Int × Int),
    Loop.enters (fun p => decide (p.2 < (n : Int))) (searchStep s) k (1, (s : Int)) = some p →
      p = (((k + 1 : Nat) : Int), ((coefficient s (k + 1) : Nat) : Int)) ∧ (p.2 < n → p.1 + 1 ∣ p.2 * (p.1 + 1 + s - 1))
  usable : ∃ r, binomialProgress n s = some r ∧ Usable n s r

section

variable {n s : Nat}

theorem coefficient_one (s : Nat) : coefficient s 1 = s := by
  rw [coefficient, Nat.add_sub_cancel_left, Nat.choose_one_right]

theorem coefficient_succ (s j : Nat) : coefficient (s + 1) j = (j + s).choose j := rfl

theorem coefficient_mul (hs : 1 ≤ s) (j : Nat) :
    coefficient s j * (j + s) = coefficient s (j + 1) * (j + 1) := by
  obtain ⟨s, rfl⟩ := Nat.exists_eq_add_of_le' hs
  rw [coefficient_succ, coefficient_succ]
  exact choose_step j s

theorem coefficient_strictMono (hs : 2 ≤ s) : StrictMono (coefficient s) := by
  refine strictMono_nat_of_lt_succ fun j => ?_
  have hmul := coefficient_mul (by omega : 1 ≤ s) j
  have hpos : 0 < coefficient s j := Nat.choose_pos (by omega)
  by_contra hnot
  have hle : coefficient s (j + 1) * (j + 1) ≤ coefficient s j * (j + 1) :=
    Nat.mul_le_mul_right _ (not_lt.mp hnot)
  have hlt : coefficient s j * (j + 1) < coefficient s j * (j + s) :=
    Nat.mul_lt_mul_of_pos_left (by omega) hpos
  omega

variable {j : Nat} {p : Int × Int}

theorem eq_of_searchStep (hs : 1 ≤ s) (h : searchStep s ((j : Int), (coefficient s j : Int)) = some p) :
    p = (((j + 1 : Nat) : Int), ((coefficient s (j + 1) : Nat) : Int)) := by
  simp only [searchStep, bind_eq_bind, bind_eq_some_iff, int64_eq_some_iff] at h
  obtain ⟨j', ⟨rfl, -⟩, sum, ⟨rfl, -⟩, factor, ⟨rfl, -⟩, product, ⟨rfl, -⟩, h⟩ := h
  cases h
  have hnum : (coefficient s j : Int) * ((j : Int) + 1 + s - 1) = (coefficient s (j + 1) : Int) * ((j : Int) + 1) := by
    rw [show (j : Int) + 1 + s - 1 = ((j + s : Nat) : Int) by omega]
    exact_mod_cast coefficient_mul hs j
  rw [hnum, Int.mul_tdiv_cancel _ (by omega)]
  rfl

theorem le_coefficient (hs : 2 ≤ s) (hj : 1 ≤ j) : j + s - 1 ≤ coefficient s j := by
  obtain ⟨s, rfl⟩ := Nat.exists_eq_add_of_le' hs
  obtain ⟨j, rfl⟩ := Nat.exists_eq_add_of_le' hj
  exact le_choose j s

theorem exists_searchStep (hs : 2 ≤ s) (hrange : InRange n s) (hj : 1 ≤ j) (hlt : coefficient s j < n) :
    ∃ p, searchStep s ((j : Int), (coefficient s j : Int)) = some p := by
  obtain ⟨-, -, hproduct⟩ := hrange
  have hbound := hproduct j hj hlt
  have htwo : 2 * (j + s) ≤ coefficient s j * (j + s) :=
    Nat.mul_le_mul_right _ (le_trans (by omega) (le_coefficient hs hj))
  obtain ⟨product, hproduct'⟩ : ∃ product, coefficient s j * (j + s) = product := ⟨_, rfl⟩
  rw [hproduct'] at hbound htwo
  have hfactor : (j : Int) + 1 + s - 1 = ((j + s : Nat) : Int) := by omega
  have hcast : (coefficient s j : Int) * ((j + s : Nat) : Int) = (product : Nat) := by
    rw [← Nat.cast_mul, hproduct']
  have hj' : int64 ((j : Int) + 1) = some ((j : Int) + 1) := int64_of_fits (by omega) (by omega)
  have hsum : int64 ((j : Int) + 1 + s) = some ((j : Int) + 1 + s) := int64_of_fits (by omega) (by omega)
  have hfits : int64 ((j + s : Nat) : Int) = some ((j + s : Nat) : Int) := int64_of_fits (by omega) (by omega)
  have hlast : int64 (product : Int) = some (product : Int) := int64_of_fits (by omega) (by omega)
  refine ⟨((j : Int) + 1, (product : Int).tdiv ((j : Int) + 1)), ?_⟩
  rw [searchStep, hj', bind_eq_bind, bind_some, hsum, bind_some, hfactor, hfits, bind_some]
  dsimp only
  rw [hcast, hlast, bind_some]

theorem entering (hs : 1 ≤ s) (k : Nat)
    (h : Loop.enters (fun p => decide (p.2 < (n : Int))) (searchStep s) k (1, (s : Int)) = some p) :
    p = (((k + 1 : Nat) : Int), ((coefficient s (k + 1) : Nat) : Int)) := by
  induction k generalizing p with
  | zero =>
    cases h
    rw [zero_add, coefficient_one]
    rfl
  | succ k ih =>
    obtain ⟨q, hq, -, hstep⟩ := Loop.enters_succ_last h
    obtain rfl := ih hq
    exact eq_of_searchStep hs hstep

theorem exists_search (hs : 2 ≤ s) (hn : n ≠ 1) (hrange : InRange n s) :
    ∃ m, (∀ k < m, coefficient s (k + 1) < n) ∧ n ≤ coefficient s (m + 1) ∧
      binomialProgress n s = some ((if coefficient s (m + 1) = n then m + 1 else m : Nat) : Int) := by
  have hex : ∃ m, n ≤ coefficient s (m + 1) :=
    ⟨n, le_trans (by omega) (le_coefficient hs (Nat.le_add_left 1 n))⟩
  have hbelow : ∀ k < Nat.find hex, coefficient s (k + 1) < n := fun k hk => not_le.mp (Nat.find_min hex hk)
  refine ⟨Nat.find hex, hbelow, Nat.find_spec hex, ?_⟩
  have hfuel : Nat.find hex < (n : Int).toNat + 1 := by
    rw [Int.toNat_natCast]
    exact Nat.lt_succ_of_le (Nat.find_min' hex (le_trans (by omega) (le_coefficient hs (Nat.le_add_left 1 n))))
  have hrun : Loop.run (fun p : Int × Int => decide (p.2 < (n : Int))) (searchStep s) ((n : Int).toNat + 1)
      (((0 + 1 : Nat) : Int), ((coefficient s (0 + 1) : Nat) : Int)) = _ :=
    Loop.run_of_path (fun m => (((m + 1 : Nat) : Int), ((coefficient s (m + 1) : Nat) : Int))) hfuel
      (fun k hk => by
        obtain ⟨p, hp⟩ := exists_searchStep hs hrange (Nat.le_add_left 1 k) (hbelow k hk)
        exact ⟨decide_eq_true (Int.ofNat_lt.mpr (hbelow k hk)), hp.trans (congrArg some (eq_of_searchStep (by omega) hp))⟩)
      (decide_eq_false (not_lt.mpr (Int.ofNat_le.mpr (Nat.find_spec hex))))
  rw [zero_add, coefficient_one] at hrun
  rw [binomialProgress, if_neg (by omega), if_neg (by omega)]
  rw [show (1 : Int) = ((1 : Nat) : Int) from rfl, hrun, map_some]
  dsimp only
  split
  · rename_i heq
    rw [if_pos (Int.ofNat.inj heq)]
  · rename_i hne
    rw [if_neg fun heq => hne (congrArg _ heq)]
    simp

theorem usable_of_le (hs : 2 ≤ s) (hn : n ≠ 1) (hle : s ≤ n) (hrange : InRange n s) :
    ∃ r, binomialProgress n s = some r ∧ Usable n s r := by
  obtain ⟨m, hbelow, hreach, hr⟩ := exists_search hs hn hrange
  have hmono := coefficient_strictMono hs
  refine ⟨_, hr, ?_⟩
  -- the progress as a number `j`, with `j` within reach and `j + 1` not
  obtain ⟨j, hj, hpos, hin, hout⟩ : ∃ j, (if coefficient s (m + 1) = n then m + 1 else m) = j ∧ 1 ≤ j ∧
      coefficient s j ≤ n ∧ n < coefficient s (j + 1) := by
    split
    · rename_i heq
      exact ⟨m + 1, rfl, Nat.le_add_left 1 m, heq.le, heq ▸ hmono (Nat.lt_succ_self _)⟩
    · rename_i hne
      have hlt : n < coefficient s (m + 1) := lt_of_le_of_ne hreach (Ne.symm hne)
      rcases m with _ | m
      · rw [zero_add, coefficient_one] at hlt
        omega
      · exact ⟨m + 1, rfl, Nat.le_add_left 1 m, (hbelow m (Nat.lt_succ_self m)).le, hlt⟩
  rw [hj]
  refine ⟨by exact_mod_cast hpos, ?_, fun i hi => ?_⟩
  · have hgrow := le_coefficient hs hpos
    exact_mod_cast (show j ≤ n by omega)
  · have hle' : j ≤ i := hi.2 ⟨hpos, hin⟩
    have hlt : i < j + 1 := hmono.lt_iff_lt.mp (lt_of_le_of_lt hi.1.2 hout)
    exact_mod_cast (show j = i by omega)

theorem binomialProgress_eq_zero (hs : 2 ≤ s) (hn : n ≠ 1) (hlt : n < s) (hrange : InRange n s) :
    binomialProgress n s = some 0 := by
  obtain ⟨m, hbelow, hreach, hr⟩ := exists_search hs hn hrange
  have hzero : m = 0 := by
    by_contra hm
    have hfirst := hbelow 0 (pos_of_ne_zero hm)
    rw [zero_add, coefficient_one] at hfirst
    omega
  subst hzero
  rw [zero_add, coefficient_one, if_neg (by omega)] at hr
  exact hr

theorem binomialProgress_eq_one (hs : 1 ≤ s) (hunit : s = 1 ∨ n = 1) : binomialProgress n s = some 1 := by
  rw [binomialProgress, if_neg (by omega), if_pos (by omega)]

theorem usable_one (hn : 1 ≤ n) (hunit : s = 1 ∨ n = 1 ∧ 2 ≤ s) : Usable n s 1 := by
  refine ⟨le_rfl, by exact_mod_cast hn, fun i hi => ?_⟩
  obtain rfl | ⟨rfl, hs⟩ := hunit
  · -- with one checkpoint every coefficient is 1, and there is no largest `j`
    have hnext : i + 1 ≤ i := hi.2 ⟨Nat.le_add_left 1 i, by
      rw [coefficient, Nat.add_sub_cancel, Nat.choose_self]
      exact hn⟩
    omega
  · have hgrow := le_coefficient hs hi.1.1
    have hone := hi.1.2
    have hi := hi.1.1
    exact_mod_cast (show 1 = i by omega)

/-- The search keeps its invariant, and the progress is usable unless there are at least two steps left and more
checkpoints than steps. -/
theorem progress_correct_iff (hn : 1 ≤ n) (hs : 1 ≤ s) (hrange : InRange n s) : Correct n s ↔ s ≤ n ∨ n = 1 := by
  constructor
  · intro hcorrect
    by_contra hnot
    obtain ⟨hlt, hne⟩ := not_or.mp hnot
    obtain ⟨r, hr, husable⟩ := hcorrect.usable
    rw [binomialProgress_eq_zero (by omega) hne (by omega) hrange] at hr
    cases hr
    exact absurd husable.pos (by decide)
  · intro hcond
    refine ⟨fun k p hp => ?_, ?_⟩
    · have heq := entering hs k hp
      refine ⟨heq, fun _ => ?_⟩
      rw [heq]
      refine ⟨((coefficient s (k + 1 + 1) : Nat) : Int), ?_⟩
      dsimp only
      rw [show ((k + 1 : Nat) : Int) + 1 + s - 1 = ((k + 1 + s : Nat) : Int) by omega, mul_comm (_ + 1)]
      exact_mod_cast coefficient_mul hs (k + 1)
    · by_cases hunit : s = 1 ∨ n = 1
      · exact ⟨1, binomialProgress_eq_one hs hunit, usable_one hn (by omega)⟩
      · exact usable_of_le (by omega) (by omega) (by omega) hrange

/-- Five steps and two checkpoints. -/
theorem progress_correct_iff_five : Correct 5 2 ↔ 2 ≤ 5 ∨ 5 = 1 := by
  refine progress_correct_iff (by decide) (by decide) ⟨by decide, by decide, fun j hj hlt => ?_⟩
  have hgrow := le_coefficient (le_refl 2) hj
  have hj' : j < 5 := by omega
  calc coefficient 2 j * (j + 2) ≤ 5 * (5 + 2) := Nat.mul_le_mul hlt.le (by omega)
    _ < 2 ^ 63 := by decide

/-- With two steps left and three checkpoints the schedule stays where it is. -/
theorem progress_not_correct_two : binomialProgress 2 3 = some 0 ∧ ¬ Correct 2 3 := by
  have hzero : binomialProgress 2 3 = some 0 := by decide
  refine ⟨hzero, fun hcorrect => ?_⟩
  obtain ⟨r, hr, husable⟩ := hcorrect.usable
  cases hzero.symm.trans hr
  exact absurd husable.pos (by decide)

end

end EnzymeJax.BinomialProgressConstProp
