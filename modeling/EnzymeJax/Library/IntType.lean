import Mathlib.Tactic

/-!
# Integer types

The integers that an integer type of some width holds, and the one that an integer becomes when it is
cut off at that width.
-/

structure IntType where
  width : Nat
  unsigned : Bool
  deriving DecidableEq

namespace IntType

/-- The integer of the type that has the same lowest bits. -/
def wrap (type : IntType) (n : Int) : Int :=
  if type.unsigned then n % 2 ^ type.width else n.bmod (2 ^ type.width)

theorem wrap_zero (type : IntType) : type.wrap 0 = 0 := by
  rw [wrap]
  split
  · exact Int.zero_emod _
  · exact Int.zero_bmod

theorem dvd_wrap_sub (type : IntType) (n : Int) : (2 ^ type.width : Int) ∣ type.wrap n - n := by
  rw [wrap]
  split
  · exact Int.dvd_emod_sub_self
  · exact_mod_cast Int.dvd_bmod_sub_self

variable {type : IntType}

variable {n m r : Int} {width : Nat}

/-- Integers with the same lowest bits. -/
theorem wrap_eq_wrap_iff : type.wrap n = type.wrap m ↔ (2 ^ type.width : Int) ∣ n - m := by
  constructor
  · intro h
    have hsum := (type.dvd_wrap_sub m).sub (type.dvd_wrap_sub n)
    rw [h] at hsum
    rwa [show type.wrap m - m - (type.wrap m - n) = n - m by omega] at hsum
  · intro ⟨k, hk⟩
    rw [show n = m + 2 ^ type.width * k by omega, wrap, wrap]
    split
    · exact Int.add_mul_emod_self_left ..
    · have hpow : ((2 ^ type.width : Nat) : Int) = 2 ^ type.width := by push_cast; rfl
      rw [← hpow, Int.add_mul_bmod_self_left]

theorem wrap_wrap (type : IntType) (n : Int) : type.wrap (type.wrap n) = type.wrap n :=
  wrap_eq_wrap_iff.mpr (type.dvd_wrap_sub n)

theorem wrap_add_wrap (type : IntType) (n m : Int) : type.wrap (n + type.wrap m) = type.wrap (n + m) := by
  refine wrap_eq_wrap_iff.mpr ?_
  rw [show n + type.wrap m - (n + m) = type.wrap m - m by omega]
  exact type.dvd_wrap_sub m

theorem wrap_wrap_add (type : IntType) (n m : Int) : type.wrap (type.wrap n + m) = type.wrap (n + m) := by
  rw [Int.add_comm, wrap_add_wrap, Int.add_comm]

/-- The integers of a signed type are those of half its modulus to both sides. -/
theorem wrap_signed_eq_iff (hwidth : 0 < width) :
    wrap ⟨width, false⟩ n = n ↔ -2 ^ (width - 1) ≤ n ∧ n < 2 ^ (width - 1) := by
  obtain ⟨k, rfl⟩ := Nat.exists_eq_add_of_lt hwidth
  have hpow : ((2 ^ (0 + k + 1) : Nat) : Int) = 2 * 2 ^ k := by
    rw [zero_add, pow_succ]
    push_cast
    ring
  change n.bmod (2 ^ (0 + k + 1)) = n ↔ _
  rw [Int.bmod_eq_iff (by positivity), hpow, show 0 + k + 1 - 1 = k by omega, Int.sub_self]
  have hdvd : (2 * 2 ^ k : Int) ∣ 0 := Int.dvd_zero _
  constructor
  · intro h
    omega
  · intro h
    omega

theorem wrap_unsigned_eq_iff : wrap ⟨width, true⟩ n = n ↔ 0 ≤ n ∧ n < 2 ^ width := by
  have hpos : (0 : Int) < 2 ^ width := by positivity
  constructor
  · intro h
    change n % 2 ^ width = n at h
    exact ⟨h ▸ Int.emod_nonneg n hpos.ne', h ▸ Int.emod_lt_of_pos n hpos⟩
  · intro ⟨hlow, hhigh⟩
    exact Int.emod_eq_of_lt hlow hhigh

theorem wrap_of_le (hn : type.wrap n = n) (hpos : 0 ≤ m) (hle : m ≤ n) : type.wrap m = m := by
  obtain ⟨width, unsigned⟩ := type
  cases unsigned with
  | true =>
    have hrange := wrap_unsigned_eq_iff.mp hn
    exact wrap_unsigned_eq_iff.mpr ⟨hpos, by omega⟩
  | false =>
    cases width with
    | zero =>
      have hzero : n = 0 := by
        rw [← hn]
        exact Int.bmod_one n
      obtain rfl : m = 0 := by omega
      exact wrap_zero _
    | succ width =>
      have hrange := (wrap_signed_eq_iff (Nat.succ_pos width)).mp hn
      exact (wrap_signed_eq_iff (Nat.succ_pos width)).mpr ⟨by omega, by omega⟩

theorem wrap_of_width_lt (hn : type.wrap n = n) (hwidth : type.width < width) : wrap ⟨width, false⟩ n = n := by
  rw [wrap_signed_eq_iff (by omega)]
  have hpow : (2 : Int) ^ type.width ≤ 2 ^ (width - 1) :=
    pow_le_pow_right₀ (by omega) (by omega)
  obtain ⟨w, unsigned⟩ := type
  cases unsigned with
  | true =>
    have hrange := wrap_unsigned_eq_iff.mp hn
    dsimp only at hpow
    omega
  | false =>
    cases w with
    | zero =>
      have hzero : n = 0 := by
        rw [← hn]
        exact Int.bmod_one n
      have hpos : (0 : Int) < 2 ^ (width - 1) := by positivity
      omega
    | succ w =>
      have hrange : -2 ^ (w + 1 - 1) ≤ n ∧ n < 2 ^ (w + 1 - 1) :=
        (wrap_signed_eq_iff (Nat.succ_pos w)).mp hn
      have hhalf : (2 : Int) ^ (w + 1 - 1) ≤ 2 ^ (w + 1) := pow_le_pow_right₀ (by omega) (by omega)
      dsimp only at hpow
      omega

theorem abs_sub_lt (hn : type.wrap n = n) (hm : type.wrap m = m) : |n - m| < 2 ^ type.width := by
  obtain ⟨width, unsigned⟩ := type
  rw [abs_lt]
  cases unsigned with
  | true =>
    have h := wrap_unsigned_eq_iff.mp hn
    have h' := wrap_unsigned_eq_iff.mp hm
    dsimp only
    omega
  | false =>
    cases width with
    | zero =>
      have hzero : n = 0 ∧ m = 0 := ⟨hn.symm.trans (Int.bmod_one n), hm.symm.trans (Int.bmod_one m)⟩
      rw [hzero.1, hzero.2]
      decide
    | succ width =>
      have h := (wrap_signed_eq_iff (Nat.succ_pos width)).mp hn
      have h' := (wrap_signed_eq_iff (Nat.succ_pos width)).mp hm
      rw [Nat.succ_sub_one] at h h'
      dsimp only
      rw [pow_succ]
      omega

/-! ### `int64_t` -/

/-- The value of an `int64_t` expression. An overflow is undefined. -/
def int64 (n : Int) : Option Int := if wrap ⟨64, false⟩ n = n then some n else none

theorem int64_of_fits (hlow : -2 ^ 63 ≤ n) (hhigh : n < 2 ^ 63) : int64 n = some n :=
  if_pos ((wrap_signed_eq_iff (show 0 < 64 by decide)).mpr ⟨hlow, hhigh⟩)

theorem int64_of_le (hle : 2 ^ 63 ≤ n) : int64 n = none :=
  if_neg fun hfits => absurd ((wrap_signed_eq_iff (show 0 < 64 by decide)).mp hfits).2 (not_lt.mpr hle)

theorem int64_eq_some_iff : int64 n = some r ↔ n = r ∧ -2 ^ 63 ≤ n ∧ n < 2 ^ 63 := by
  rw [int64, Option.ite_none_right_eq_some, Option.some.injEq, and_comm]
  exact and_congr_right fun _ => wrap_signed_eq_iff (show 0 < 64 by decide)

theorem eq_of_int64 (h : int64 n = some r) : n = r :=
  Option.some.inj (Option.ite_none_right_eq_some.mp h).2

end IntType
