import EnzymeJax.Checkpointing.Progress

/-!
# Stacks of checkpoints

What binomial checkpointing does to the iteration numbers alone. A stack holds the iterations that are stored, the
latest one first; the slots from an entry on are its budget. `place` fills the stack before the reverse sweep
and `Rewind` is what one reverse step makes of it.
-/

namespace EnzymeJax

open List

/-- No request made in reversing `n` iterations with `s` checkpoints has fewer iterations than
checkpoints, single iterations apart. -/
inductive Schedule : Nat → Nat → Prop
  | one {s : Nat} : Schedule 1 s
  | split {n s : Nat} (hn : 2 ≤ n) (hs : s ≤ n) (hfirst : Schedule (progress n s) s)
      (hrest : Schedule (n - progress n s) (s - 1)) : Schedule n s

variable {n s S m : Nat} {rest : List Nat}

theorem Schedule.pos (h : Schedule n s) : 0 < n := by
  cases h with
  | one => exact one_pos
  | split hn => omega

theorem Schedule.of_two_le (h : Schedule n s) (hn : 2 ≤ n) :
    Schedule (progress n s) s ∧ Schedule (n - progress n s) (s - 1) := by
  cases h with
  | one => omega
  | split _ _ hfirst hrest => exact ⟨hfirst, hrest⟩

theorem Schedule.two (hn : 0 < n) : Schedule n 2 := by
  induction n with
  | zero => omega
  | succ n ih =>
    rcases eq_zero_or_pos n with rfl | hpos
    · exact .one
    · refine .split (by omega) (by omega) ?_ ?_ <;> rw [progress_two (by omega)]
      · exact ih hpos
      · rw [show n + 1 - (n + 1 - 1) = 1 by omega]
        exact .one

/-- Every stretch between neighbouring checkpoints, the last one ending at `stop`, can be reversed with the slots
that are left; the first checkpoint is iteration 0. -/
def GapsSound (S : Nat) : Nat → List Nat → Prop
  | stop, [] => stop = 0
  | stop, i :: rest => i < stop ∧ Schedule (stop - i) (S - rest.length) ∧ GapsSound S i rest

/-- The reverse step for iteration `k` from checkpoint `i`, above the stack `rest`. -/
inductive Rewind (S k : Nat) : Nat → List Nat → List Nat → Prop
  | stop {rest : List Nat} : Rewind S k k rest rest
  | push {i : Nat} {rest stack : List Nat} (hbefore : i < k) (hfree : rest.length < S)
      (hnext : Rewind S k (i + progress (k + 1 - i : Nat) (S - rest.length)) (i :: rest) stack) :
      Rewind S k i rest stack

/-- The checkpoints the augmented primal stores with `m` free slots from iteration `c` on, where
`limit` is taken for the number of iterations. -/
def place (limit : Int) : Nat → Nat → List Nat → Nat × List Nat
  | 0, c, rest => (c, rest)
  | m + 1, c, rest => place limit m (c + progress (limit - c) (m + 1)) (c :: rest)

/-! ### Reverse steps -/

theorem Schedule.exists_rewind {k i : Nat} (hi : i ≤ k) (hlen : rest.length ≤ S)
    (hgap : Schedule (k + 1 - i) (S - rest.length)) (hrest : GapsSound S i rest) :
    ∃ stack, Rewind S k i rest stack ∧ GapsSound S k stack ∧ stack.length ≤ S := by
  generalize hn : k + 1 - i = n at hgap
  generalize hs : S - rest.length = s at hgap
  induction hgap generalizing i rest with
  | one =>
    obtain rfl : i = k := by omega
    exact ⟨rest, .stop, hrest, hlen⟩
  | @split n s hn2 hsn hfirst hsecond _ ih =>
    have hp := hfirst.pos
    have hleft := hsecond.pos
    have hs0 : 0 < s := by
      by_contra hs0
      obtain rfl : s = 0 := by omega
      rw [progress, binomialProgress, if_pos (by simp)] at hp
      exact absurd hp (by simp)
    subst hn hs
    have hpushed : GapsSound S (i + progress (k + 1 - i : Nat) (S - rest.length)) (i :: rest) :=
      ⟨by omega, by rwa [Nat.add_sub_cancel_left], hrest⟩
    obtain ⟨stack, hrewind, hsound, hlength⟩ := ih (by omega) (by rw [length_cons]; omega)
      hpushed (by omega) (by rw [length_cons]; omega)
    exact ⟨stack, .push (by omega) (by omega) hrewind, hsound, hlength⟩

theorem Rewind.gapsSound {k i : Nat} {stack : List Nat} (h : Rewind S k i rest stack)
    (hsound : GapsSound S k stack) : Schedule (k + 1 - i) (S - rest.length) ∧ GapsSound S i rest := by
  induction h with
  | stop =>
    rw [Nat.add_sub_cancel_left]
    exact ⟨.one, hsound⟩
  | @push i rest stack hbefore hfree _ ih =>
    obtain ⟨hsecond, hlt, hfirst, hrest⟩ := ih hsound
    rw [Nat.add_sub_cancel_left] at hfirst
    refine ⟨.split (by omega) ?_ hfirst ?_, hrest⟩
    · by_contra hmany
      rw [progress_of_lt (by omega) (by omega) (by omega)] at hlt
      omega
    · rwa [show k + 1 - i - progress (k + 1 - i : Nat) (S - rest.length) =
        k + 1 - (i + progress (k + 1 - i : Nat) (S - rest.length)) by omega, Nat.sub_sub,
        ← length_cons]

/-! ### The augmented primal -/

theorem place_fst (limit : Int) (hm : 0 < m) (c : Nat) (rest : List Nat) : ((place limit m c rest).1 : Int) =
      c + if m = 1 then 1 else if 2 ≤ limit - c then limit - c else if limit - c = 1 then 2 else 1 := by
  induction m generalizing c rest with
  | zero => omega
  | succ m ih =>
    rw [place]
    rcases eq_zero_or_pos m with rfl | hpos
    · rw [place, progress_single, if_pos rfl]
      rfl
    · rw [ih hpos, if_neg (by omega : ¬ m + 1 = 1)]
      rcases lt_trichotomy (limit - c) 1 with hlow | hone | hhigh
      · rw [progress_of_lt (by omega) (by omega) (by omega)]
        split_ifs <;> omega
      · rw [hone, progress_one (by omega)]
        split_ifs <;> omega
      · obtain ⟨n, hn⟩ := Int.eq_ofNat_of_zero_le (show 0 ≤ limit - c by omega)
        by_cases hle : m + 1 ≤ n
        · have hbounds := progress_bounds (by omega) hle
          rw [hn]
          rcases Nat.eq_or_lt_of_le hpos with rfl | htwo
          · rw [progress_two (by omega)]
            split_ifs <;> omega
          · split_ifs <;> omega
        · rw [progress_of_lt (by omega) (by omega) (by omega)]
          split_ifs <;> omega

theorem length_place (limit : Int) (m c : Nat) (rest : List Nat) :
    (place limit m c rest).2.length = m + rest.length := by
  induction m generalizing c rest with
  | zero => simp [place]
  | succ m ih =>
    rw [place, ih, length_cons]
    omega

/-- When `limit` is the number of iterations and there are enough of them, the checkpoints are sound exactly when
the whole loop can be reversed with them. -/
theorem gapsSound_place_iff {N c : Nat} (hm : 0 < m) (hS : m + rest.length = S) (hle : m ≤ N - c) :
    GapsSound S N (place N m c rest).2 ↔ Schedule (N - c) m ∧ GapsSound S c rest := by
  induction m generalizing c rest with
  | zero => omega
  | succ m ih =>
    rw [place]
    rcases eq_zero_or_pos m with rfl | hpos
    · rw [place, GapsSound, show S - rest.length = 0 + 1 by omega]
      exact and_iff_right (by omega)
    · have hcast : (N : Int) - c = (N - c : Nat) := by omega
      have hbounds := progress_bounds (by omega) hle
      rw [hcast, ih hpos (by rw [length_cons]; omega) (by omega), GapsSound,
        Nat.add_sub_cancel_left, show S - rest.length = m + 1 by omega]
      constructor
      · rintro ⟨hsecond, -, hfirst, hrest⟩
        refine ⟨.split (by omega) (by omega) hfirst ?_, hrest⟩
        rwa [Nat.add_sub_cancel, Nat.sub_sub]
      · rintro ⟨hschedule, hrest⟩
        obtain ⟨hfirst, hsecond⟩ := hschedule.of_two_le (by omega)
        rw [Nat.add_sub_cancel, Nat.sub_sub] at hsecond
        exact ⟨hsecond, by omega, hfirst, hrest⟩

end EnzymeJax
