import EnzymeJax.Checkpointing.Mode

/-!
# Periodic checkpointing of a while loop

`cacheValues` splits a loop of `numIters` iterations into blocks of `nInner` and pushes the carried values at the
start of each block. `reverseWithCheckpointing` pops them, last block first, runs the block again to fill a
tape, and walks the tape backwards. All caches are pushed and popped together, so they are one stack of tuples.
-/

namespace EnzymeJax

open List Option

def blockLimit (numIters nInner done : Int) : Int :=
  if numIters.tmod nInner = 0 then nInner else min nInner (numIters - done)

/-- What the augmented primal leaves for the reverse sweep; the last push is the head. -/
structure PeriodicCaches (ρ σ : Type) where
  carried : List σ
  outsideRefs : ρ

namespace WhileOp

variable {ρ σ γ : Type} (op : WhileOp ρ σ)

/-! ### The augmented primal -/

/-- One block of the outer loop: push the carried values, then run the inner loop. -/
def augmentedBlock (numIters nInner : Int) (refs : ρ) (outer : Int) (s : σ × List σ) :
    Option (σ × List σ) :=
  let outerIV := outer * nInner
  (Loop.forLoop 0 (blockLimit numIters nInner outerIV)
    (fun inner carried => some (op.body refs (inner + outerIV) carried)) s.1).map (·, s.1 :: s.2)

/-- The results that replace those of the loop, and the caches. `none` is a division by zero or
the error on an invalid period. -/
def cacheValues (nInner : Int) (refs : ρ) (init : σ) :
    Option ((Int × σ) × PeriodicCaches ρ σ) := do
  let numIters ← op.info.getConstantNumIters
  if nInner = 0 then none else
  let nOuter := (numIters + nInner - 1).tdiv nInner
  if nInner * nOuter < numIters then none else
  let (results, carried) ← Loop.forLoop 0 nOuter (op.augmentedBlock numIters nInner refs) (init, [])
  some ((op.info.limit, results), ⟨carried, refs⟩)

/-! ### The reverse sweep -/

/-- One iteration of the loop that runs a block again and records what the adjoint needs. -/
def revInnerBody (outerStart actualInner : Int) (refs : ρ) (idx : Int)
    (s : σ × List (Int × σ)) : Option (σ × List (Int × σ)) :=
  let innerIV := actualInner - 1 - idx
  let currentIV := op.info.start + op.info.step * (outerStart + innerIV)
  some (op.body refs currentIV s.1, (currentIV, s.1) :: s.2)

/-- One iteration of the loop that applies the adjoint of the body to what the tape holds. -/
def revLoopBody (adj : ρ → Int → σ → γ → γ) (refs : ρ) (_idx : Int)
    (s : γ × List (Int × σ)) : Option (γ × List (Int × σ)) :=
  match s.2 with
  | [] => none
  | (iv, carried) :: tape => some (adj refs iv carried s.1, tape)

/-- One block of the reverse sweep. -/
def revOuterBody (numIters nInner nOuter : Int) (adj : ρ → Int → σ → γ → γ) (refs : ρ)
    (outer : Int) (s : γ × List σ) : Option (γ × List σ) :=
  match s.2 with
  | [] => none
  | carried :: caches => do
    let outerStart := nInner * (nOuter - 1 - outer)
    let actualInner := blockLimit numIters nInner outerStart
    let (_, tape) ← Loop.forLoop 0 actualInner (op.revInnerBody outerStart actualInner refs)
      (carried, [])
    let (grad, _) ← Loop.forLoop 0 actualInner (revLoopBody adj refs) (s.1, tape)
    some (grad, caches)

/-- The reverse sweep, for the adjoint `adj` of the body. -/
def reverseWithCheckpointing (nInner : Int) (adj : ρ → Int → σ → γ → γ)
    (caches : PeriodicCaches ρ σ) (grad : γ) : Option γ := do
  let numIters ← op.info.getConstantNumIters
  if nInner = 0 then none else
  let nOuter := (numIters + nInner - 1).tdiv nInner
  if nInner * nOuter < numIters then none else
  let (grad, _) ← Loop.forLoop 0 nOuter
    (op.revOuterBody numIters nInner nOuter adj caches.outsideRefs) (grad, caches.carried)
  some grad

/-! ### What the pair is for -/

/-- The augmented primal returns what a loop of `n` iterations returns, and the reverse sweep hands the adjoint what
each iteration was entered with. -/
def CheckpointingExact (nInner : Int) (refs : ρ) (init : σ) (n : Nat) : Prop :=
  ∃ caches, op.cacheValues nInner refs init = some (op.entering refs init n, caches) ∧
    ∀ (γ : Type) (adj : ρ → Int → σ → γ → γ) (grad : γ),
      op.reverseWithCheckpointing nInner adj caches grad = some (op.sweep refs init adj n grad)

/-! ### The augmented primal, block by block -/

/-- The carried values of the blocked loop after `k` iterations: its body is handed the number of
the iteration. -/
def blocked (refs : ρ) (init : σ) : Nat → σ
  | 0 => init
  | k + 1 => op.body refs k (blocked refs init k)

/-- The stack of carried values after `q` blocks. -/
def pushed (M : Nat) (refs : ρ) (init : σ) : Nat → List σ
  | 0 => []
  | q + 1 => op.blocked refs init (q * M) :: pushed M refs init q

/-- What block `q`, of `b` iterations, recomputes: its induction values come in reverse. -/
def recomputed (M b : Nat) (refs : ρ) (init : σ) (q : Nat) : Nat → σ
  | 0 => op.blocked refs init (q * M)
  | i + 1 =>
    op.body refs (op.info.start + op.info.step * (q * M + (b - 1 - i : Nat)))
      (recomputed M b refs init q i)

/-- The tape after `i` iterations of the block that runs again. -/
def recorded (M b : Nat) (refs : ρ) (init : σ) (q : Nat) : Nat → List (Int × σ)
  | 0 => []
  | i + 1 =>
    (op.info.start + op.info.step * (q * M + (b - 1 - i : Nat)),
      op.recomputed M b refs init q i) :: recorded M b refs init q i

/-- What the adjoints of the first `q` blocks are handed, in the order of the reverse sweep. -/
def handed (N M : Nat) (refs : ρ) (init : σ) : Nat → List (Int × σ)
  | 0 => []
  | q + 1 =>
    op.recorded M (min M (N - q * M)) refs init q (min M (N - q * M)) ++ handed N M refs init q

/-- What the adjoints of a loop of `n` iterations are to be handed. -/
def reversedSteps (refs : ρ) (init : σ) : Nat → List (Int × σ)
  | 0 => []
  | k + 1 => op.entering refs init k :: reversedSteps refs init k

end WhileOp

theorem blockLimit_eq {N M q : Nat} (hq : q * M < N) :
    blockLimit N M (q * M : Nat) = (min M (N - q * M) : Nat) := by
  rw [blockLimit]
  split
  · rename_i hmod
    obtain ⟨c, rfl⟩ : M ∣ N := Int.natCast_dvd_natCast.mp (Int.dvd_of_tmod_eq_zero hmod)
    have hlt : q < c := lt_of_mul_lt_mul_left (by rwa [mul_comm] at hq) (Nat.zero_le M)
    have hblock : M * (q + 1) ≤ M * c := Nat.mul_le_mul_left M hlt
    rw [mul_add, mul_one, mul_comm M q] at hblock
    omega
  · omega

variable {N M : Nat}

theorem nOuter_eq (hM : 0 < M) : ((N : Int) + M - 1).tdiv M = ((N + M - 1) / M : Nat) := by
  rw [Int.tdiv_eq_ediv_of_nonneg (by omega), show (N : Int) + M - 1 = (N + M - 1 : Nat) by omega, ← Int.natCast_ediv]

theorem lt_nOuter_iff {N M q : Nat} (hM : 0 < M) : q < (N + M - 1) / M ↔ q * M < N := by
  rw [Nat.lt_iff_add_one_le, Nat.le_div_iff_mul_le hM, add_mul, one_mul]
  omega

theorem le_nOuter_mul (hM : 0 < M) : N ≤ (N + M - 1) / M * M := by
  by_contra hlt
  exact (lt_irrefl _) ((lt_nOuter_iff hM).mpr (not_le.mp hlt))

theorem nOuter_valid (hM : 0 < M) : ¬ (M : Int) * ((N + M - 1) / M : Nat) < N := by
  have hle : (N : Int) ≤ ((N + M - 1) / M * M : Nat) := Int.ofNat_le.mpr (le_nOuter_mul hM)
  rw [Nat.cast_mul, mul_comm] at hle
  exact not_lt.mpr hle

namespace WhileOp

variable {ρ σ γ : Type} (op : WhileOp ρ σ) (refs : ρ) (init : σ)

theorem augmentedBlock_eq {N M q : Nat} (hq : q * M < N) :
    op.augmentedBlock N M refs q (op.blocked refs init (q * M), op.pushed M refs init q) =
      some (op.blocked refs init (min ((q + 1) * M) N), op.pushed M refs init (q + 1)) := by
  have hinner : Loop.forLoop 0 (min M (N - q * M) : Nat)
      (fun inner carried => some (op.body refs (inner + (q * M : Nat)) carried))
      (op.blocked refs init (q * M)) = some (op.blocked refs init (q * M + min M (N - q * M))) :=
    Loop.forLoop_path (fun k => op.blocked refs init (q * M + k)) fun k _ => by
      rw [← Nat.cast_add, add_comm k]
      rfl
  rw [augmentedBlock, ← Nat.cast_mul, blockLimit_eq hq, hinner,
    show q * M + min M (N - q * M) = min ((q + 1) * M) N by rw [add_mul, one_mul]; omega]
  rfl

theorem augmented_outer (hM : 0 < M) :
    Loop.forLoop 0 ((N + M - 1) / M : Nat) (op.augmentedBlock N M refs) (init, []) =
      some (op.blocked refs init N, op.pushed M refs init ((N + M - 1) / M)) := by
  have houter := Loop.forLoop_path
    (fun q => (op.blocked refs init (min (q * M) N), op.pushed M refs init q))
    fun q (hq : q < (N + M - 1) / M) => by
      have hlt := (lt_nOuter_iff hM).mp hq
      rw [min_eq_left hlt.le]
      exact op.augmentedBlock_eq refs init hlt
  rw [min_eq_right (le_nOuter_mul hM), zero_mul, Nat.zero_min] at houter
  exact houter

theorem cacheValues_eq (hM : 0 < M) (hiters : op.info.getConstantNumIters = some (N : Int)) :
    op.cacheValues M refs init = some ((op.info.limit, op.blocked refs init N),
      ⟨op.pushed M refs init ((N + M - 1) / M), refs⟩) := by
  simp only [cacheValues, hiters, bind_eq_bind, bind_some, nOuter_eq hM,
    if_neg (show (M : Int) ≠ 0 by omega), if_neg (nOuter_valid hM), op.augmented_outer refs init hM]

/-! ### The reverse sweep, block by block -/

theorem length_recorded (M b q i : Nat) : (op.recorded M b refs init q i).length = i := by
  induction i with
  | zero => rfl
  | succ i ih => rw [recorded, length_cons, ih]

theorem revInner_eq (M b q : Nat) :
    Loop.forLoop 0 b (op.revInnerBody (q * M : Nat) b refs) (op.blocked refs init (q * M), []) =
      some (op.recomputed M b refs init q b, op.recorded M b refs init q b) := by
  refine Loop.forLoop_path
    (fun i => (op.recomputed M b refs init q i, op.recorded M b refs init q i)) fun i hi => ?_
  have hcount : (b : Int) - 1 - i = (b - 1 - i : Nat) := by omega
  simp only [revInnerBody, hcount, Nat.cast_mul]
  rfl

theorem revLoop_eq (adj : ρ → Int → σ → γ → γ) (tape : List (Int × σ)) (grad : γ) :
    Loop.forLoop 0 tape.length (revLoopBody adj refs) (grad, tape) =
      some (tape.foldl (fun g s => adj refs s.1 s.2 g) grad, []) := by
  suffices ∀ i, Loop.iterate (revLoopBody adj refs) tape.length i (grad, tape) =
      some (tape.foldl (fun g s => adj refs s.1 s.2 g) grad, []) by
    simpa [Loop.forLoop] using this 0
  induction tape generalizing grad with
  | nil => exact fun _ => rfl
  | cons s tape ih => exact fun i => ih (adj refs s.1 s.2 grad) (i + 1)

theorem revOuterBody_eq {N M Q q : Nat} (hQ : q < Q) (hq : q * M < N) (adj : ρ → Int → σ → γ → γ) (grad : γ) :
    op.revOuterBody N M Q adj refs (Q - (q + 1) : Nat) (grad, op.pushed M refs init (q + 1)) =
      some ((op.recorded M (min M (N - q * M)) refs init q (min M (N - q * M))).foldl
        (fun g s => adj refs s.1 s.2 g) grad, op.pushed M refs init q) := by
  have hstart : (M : Int) * (Q - 1 - (Q - (q + 1) : Nat)) = (q * M : Nat) := by
    rw [show (Q : Int) - 1 - (Q - (q + 1) : Nat) = q by omega, Nat.cast_mul, mul_comm]
  have hloop := revLoop_eq refs adj
    (op.recorded M (min M (N - q * M)) refs init q (min M (N - q * M))) grad
  rw [length_recorded] at hloop
  simp only [revOuterBody, pushed, hstart, blockLimit_eq hq, op.revInner_eq refs init, hloop, bind_eq_bind, bind_some]

theorem reverse_outer {N M Q : Nat} (hbelow : ∀ q < Q, q * M < N) (adj : ρ → Int → σ → γ → γ)
    {q : Nat} (hq : q ≤ Q) (grad : γ) :
    Loop.iterate (op.revOuterBody N M Q adj refs) q (Q - q : Nat)
        (grad, op.pushed M refs init q) =
      some ((op.handed N M refs init q).foldl (fun g s => adj refs s.1 s.2 g) grad, []) := by
  induction q generalizing grad with
  | zero => rfl
  | succ q ih =>
    rw [Loop.iterate_succ, op.revOuterBody_eq refs init hq (hbelow q hq), bind_some,
      show ((Q - (q + 1) : Nat) : Int) + 1 = (Q - q : Nat) by omega, ih (by omega), handed,
      foldl_append]

theorem reverseWithCheckpointing_eq (hM : 0 < M) (hiters : op.info.getConstantNumIters = some (N : Int))
    (adj : ρ → Int → σ → γ → γ) (grad : γ) :
    op.reverseWithCheckpointing M adj ⟨op.pushed M refs init ((N + M - 1) / M), refs⟩ grad =
      some ((op.handed N M refs init ((N + M - 1) / M)).foldl (fun g s => adj refs s.1 s.2 g) grad) := by
  have houter := op.reverse_outer refs init (fun q => (lt_nOuter_iff hM).mp) adj
    (le_refl ((N + M - 1) / M)) grad
  rw [Nat.sub_self] at houter
  simp only [reverseWithCheckpointing, hiters, bind_eq_bind, bind_some,
    nOuter_eq hM, if_neg (show (M : Int) ≠ 0 by omega), if_neg (nOuter_valid hM), Loop.forLoop,
    Int.sub_zero, Int.toNat_natCast]
  rw [show (0 : Int) = (0 : Nat) from rfl, houter]
  rfl

/-! ### When the pair is exact -/

theorem sweep_eq (adj : ρ → Int → σ → γ → γ) (n : Nat) (grad : γ) :
    op.sweep refs init adj n grad = (op.reversedSteps refs init n).foldl (fun g s => adj refs s.1 s.2 g) grad := by
  induction n generalizing grad with
  | zero => rfl
  | succ n ih => exact ih _

theorem exact_iff_handed {N M n : Nat} (hM : 0 < M) (hiters : op.info.getConstantNumIters = some (N : Int)) :
    op.CheckpointingExact M refs init n ↔ (op.info.limit, op.blocked refs init N) = op.entering refs init n ∧
        op.handed N M refs init ((N + M - 1) / M) = op.reversedSteps refs init n := by
  unfold CheckpointingExact
  rw [op.cacheValues_eq refs init hM hiters]
  constructor
  · rintro ⟨caches, haug, hrev⟩
    obtain ⟨hresults, rfl⟩ := Prod.mk.inj (some.inj haug)
    refine ⟨hresults, ?_⟩
    have hcollect := hrev (List (Int × σ)) (fun _ iv carried l => (iv, carried) :: l) []
    rw [op.reverseWithCheckpointing_eq refs init hM hiters, sweep_eq] at hcollect
    simpa [foldl_flip_cons_eq_append'] using hcollect
  · rintro ⟨hresults, hhanded⟩
    refine ⟨_, congrArg some (Prod.ext hresults rfl), fun γ adj grad => ?_⟩
    rw [op.reverseWithCheckpointing_eq refs init hM hiters, sweep_eq, hhanded]

theorem handed_eq_iff_of_single {N M q : Nat} (hsingle : M = 1 ∨ N ≤ 1) (hM : 0 < M) (hq : q ≤ N) :
    op.handed N M refs init q = op.reversedSteps refs init q ↔
      ∀ k < q, op.blocked refs init k = (op.entering refs init k).2 := by
  induction q with
  | zero => simp [handed, reversedSteps]
  | succ q ih =>
    have hmul : q * M = q := by
      obtain rfl | hN := hsingle
      · exact mul_one q
      · rw [show q = 0 by omega, zero_mul]
    have hsize : min M (N - q) = 1 := by omega
    have hentry : op.recorded M 1 refs init q 1 = [((op.entering refs init q).1, op.blocked refs init q)] := by
      have hiv : (q : Int) * M = q := by rw [← Nat.cast_mul, hmul]
      simp [recorded, recomputed, hmul, hiv, mul_comm]
    rw [handed, hmul, hsize, hentry, reversedSteps, singleton_append, cons.injEq,
      ih (by omega), Nat.forall_lt_succ_right, and_comm]
    simp [Prod.ext_iff]

theorem getLast?_recorded (M b q i : Nat) : (op.recorded M b refs init q (i + 1)).getLast? =
      some (op.info.start + op.info.step * (q * M + (b - 1 : Nat)), op.blocked refs init (q * M)) := by
  induction i with
  | zero => rfl
  | succ i ih => rw [recorded, getLast?_cons, ih, getD_some]

theorem getLast?_handed (hM : 0 < M) (hN : 0 < N) (q : Nat) : (op.handed N M refs init (q + 1)).getLast? =
      some (op.info.start + op.info.step * (min M N - 1 : Nat), init) := by
  induction q with
  | zero =>
    rw [handed, handed, append_nil, zero_mul, Nat.sub_zero]
    conv_lhs => rw [show op.recorded M (min M N) refs init 0 (min M N) =
      op.recorded M (min M N) refs init 0 (min M N - 1 + 1) by rw [Nat.sub_add_cancel (by omega)]]
    rw [getLast?_recorded, Nat.cast_zero, zero_mul, zero_add, zero_mul]
    rfl
  | succ q ih => rw [handed, getLast?_append, ih, some_or]

theorem getLast?_reversedSteps (k : Nat) :
    (op.reversedSteps refs init (k + 1)).getLast? = some (op.info.start, init) := by
  induction k with
  | zero => rfl
  | succ k ih => rw [reversedSteps, getLast?_cons, ih, getD_some]

/-- A block of two or more iterations hands over its induction values in the wrong order. -/
theorem handed_eq_iff (hM : 0 < M) (hN : 0 < N) (hstep : 0 < op.info.step) :
    op.handed N M refs init ((N + M - 1) / M) = op.reversedSteps refs init N ↔
      (M = 1 ∨ N ≤ 1) ∧ ∀ k < N, op.blocked refs init k = (op.entering refs init k).2 := by
  by_cases hsingle : M = 1 ∨ N ≤ 1
  · have houter : (N + M - 1) / M = N := by
      rcases hsingle with rfl | hle
      · rw [Nat.add_sub_cancel, Nat.div_one]
      · obtain rfl : N = 1 := by omega
        rw [Nat.add_sub_cancel_left, Nat.div_self hM]
    rw [houter, op.handed_eq_iff_of_single refs init hsingle hM (le_refl N), and_iff_right hsingle]
  · refine iff_of_false (fun h => ?_) fun h => hsingle h.1
    obtain ⟨Q, hQ⟩ := Nat.exists_eq_add_one.mpr ((lt_nOuter_iff hM).mpr (by omega : 0 * M < N))
    obtain ⟨k, rfl⟩ := Nat.exists_eq_add_one.mpr hN
    have hlast := congrArg getLast? h
    rw [hQ, op.getLast?_handed refs init hM hN, op.getLast?_reversedSteps] at hlast
    have hiv := congrArg Prod.fst (some.inj hlast)
    have hmul : op.info.step * (min M (k + 1) - 1 : Nat) = 0 := add_eq_left.mp hiv
    rcases mul_eq_zero.mp hmul with hzero | hzero <;> omega

/-- The blocked loop keeps to the original one exactly as long as the body cannot tell the number
of an iteration from its induction value. -/
theorem blocked_eq_iff (n : Nat) : (∀ k < n + 1, op.blocked refs init k = (op.entering refs init k).2) ↔
      ∀ k < n, op.body refs k (op.entering refs init k).2 =
        op.body refs (op.info.start + k * op.info.step) (op.entering refs init k).2 := by
  induction n with
  | zero => simp [blocked]
  | succ n ih =>
    rw [Nat.forall_lt_succ_right (n := n + 1), ih, Nat.forall_lt_succ_right (n := n)]
    refine and_congr_right fun hbefore => ?_
    rw [blocked, ih.mpr hbefore n (Nat.lt_succ_self n), entering_succ_snd]

theorem cacheValues_zero : op.cacheValues 0 refs init = none := by
  cases h : op.info.getConstantNumIters <;> simp [cacheValues, h]

/-- A loop that never runs is left alone only when its trip count is computed to be zero. -/
theorem exact_empty_iff {M : Nat} (hcount : op.TripCount refs init 0) :
    op.CheckpointingExact M refs init 0 ↔ op.info.limit = op.info.start ∧ 0 < op.info.step ∧ 0 < M := by
  have hend := ((op.tripCount_iff refs init).mp hcount).2
  rw [Nat.cast_zero, zero_mul, add_zero] at hend
  constructor
  · intro hexact
    have hM : 0 < M := by
      rcases eq_zero_or_pos M with rfl | hM
      · obtain ⟨_, haug, _⟩ := hexact
        simp [cacheValues_zero] at haug
      · exact hM
    have hlimit : op.info.limit = op.info.start := by
      by_contra hne
      have hiters : op.info.getConstantNumIters = some ((0 : Nat) : Int) :=
        if_pos (lt_of_le_of_ne hend hne)
      exact hne (congrArg Prod.fst ((op.exact_iff_handed refs init hM hiters).mp hexact).1)
    refine ⟨hlimit, ?_, hM⟩
    by_contra hstep
    rcases (not_lt.mp hstep).lt_or_eq with hneg | hzero
    · -- counting down, the rounded division yields at least one iteration
      have hquot : 0 < (op.info.step - 1).tdiv op.info.step := by
        rw [← Int.neg_tdiv_neg, Int.tdiv_eq_ediv_of_nonneg (by omega)]
        exact Int.le_ediv_of_mul_le (by omega) (by omega)
      obtain ⟨N, hN⟩ := Int.eq_ofNat_of_zero_le hquot.le
      have hiters : op.info.getConstantNumIters = some (N : Int) := by
        rw [WhileLoopInfo.getConstantNumIters, if_neg (by omega), if_neg (by omega),
          if_neg (by omega), hlimit, sub_self, zero_add, hN]
      obtain ⟨Q, hQ⟩ := Nat.exists_eq_add_one.mpr ((lt_nOuter_iff hM).mpr (by omega : 0 * M < N))
      have hhanded := ((op.exact_iff_handed refs init hM hiters).mp hexact).2
      have hlast := op.getLast?_handed refs init hM (by omega : 0 < N) Q
      rw [← hQ, hhanded] at hlast
      simp [reversedSteps] at hlast
    · obtain ⟨_, haug, _⟩ := hexact
      have hiters : op.info.getConstantNumIters = none := by
        rw [WhileLoopInfo.getConstantNumIters, if_neg (by omega), if_neg (by omega), if_pos hzero]
      simp [cacheValues, hiters] at haug
  · rintro ⟨hlimit, hstep, hM⟩
    have hiters : op.info.getConstantNumIters = some ((0 : Nat) : Int) := by
      rw [WhileLoopInfo.getConstantNumIters, if_neg (by omega), if_neg (by omega),
        if_neg (by omega), hlimit, Int.tdiv_eq_ediv_of_nonneg (by omega),
        Int.ediv_eq_zero_of_lt (by omega) (by omega), Nat.cast_zero]
    rw [op.exact_iff_handed refs init hM hiters, zero_add, Nat.div_eq_of_lt (by omega)]
    exact ⟨Prod.ext hlimit rfl, rfl⟩

/-- What the two halves rely on: the loop ends exactly at its limit, a loop that never runs has a positive step and
a period, no block has two iterations, and the body gives the same for the number of an iteration as for its
induction value. -/
structure PeriodicallySound (nInner : Int) (n : Nat) : Prop where
  limit_eq : op.info.limit = op.info.start + n * op.info.step
  pos_of_empty : n = 0 → 0 < op.info.step ∧ 0 < nInner
  single : nInner = 1 ∨ n ≤ 1
  body_eq : ∀ k < n, op.body refs k (op.entering refs init k).2 =
    op.body refs (op.info.start + k * op.info.step) (op.entering refs init k).2

end WhileOp

end EnzymeJax
