import EnzymeJax.Library.IntType

/-!
# The order of wrapped integers

How integers compare that are cut off at the width of a type, and where cutting them off changes it.
-/

namespace IntType

variable {type : IntType} {n m : Int}

def lowest (type : IntType) : Int := if type.unsigned then 0 else -2 ^ (type.width - 1)

/-- The integers that cutting off changes by the same amount. -/
def WrapsAlike (type : IntType) (n m : Int) : Prop := type.wrap n - n = type.wrap m - m

instance : Decidable (type.WrapsAlike n m) := inferInstanceAs (Decidable (_ = _))

theorem WrapsAlike.symm (h : type.WrapsAlike n m) : type.WrapsAlike m n := Eq.symm h

theorem WrapsAlike.trans {k : Int} (h : type.WrapsAlike n m) (h' : type.WrapsAlike m k) : type.WrapsAlike n k :=
  Eq.trans h h'

theorem wrap_lt_wrap_iff_of_wrapsAlike (h : type.WrapsAlike n m) : type.wrap n < type.wrap m ↔ n < m := by
  rw [WrapsAlike] at h
  omega

theorem wrap_lt_wrap_iff_of_not_wrapsAlike (h : ¬type.WrapsAlike n m) (hlt : |n - m| < 2 ^ type.width) :
    type.wrap n < type.wrap m ↔ m < n := by
  obtain ⟨p, hp⟩ := type.dvd_wrap_sub n
  obtain ⟨q, hq⟩ := type.dvd_wrap_sub m
  have hwrapped := abs_lt.mp (abs_sub_lt (type.wrap_wrap n) (type.wrap_wrap m))
  have hgiven := abs_lt.mp hlt
  have hdiff : type.wrap n - type.wrap m = n - m + 2 ^ type.width * (p - q) := by
    rw [Int.mul_sub, ← hp, ← hq]
    ring
  have hpos : (0 : Int) < 2 ^ type.width := by positivity
  rcases lt_trichotomy p q with hpq | hpq | hpq
  · have hle : (2 : Int) ^ type.width * (p - q) ≤ 2 ^ type.width * (-1) :=
      Int.mul_le_mul_of_nonneg_left (by omega) hpos.le
    omega
  · rw [hpq] at hp
    exact absurd (hp.trans hq.symm) h
  · have hle : (2 : Int) ^ type.width * 1 ≤ 2 ^ type.width * (p - q) :=
      Int.mul_le_mul_of_nonneg_left (by omega) hpos.le
    omega

theorem wrap_eq_wrap_iff_of_abs_lt (hlt : |n - m| < 2 ^ type.width) : type.wrap n = type.wrap m ↔ n = m := by
  rw [wrap_eq_wrap_iff]
  constructor
  · intro hdvd
    have hzero := Int.eq_zero_of_abs_lt_dvd hdvd hlt
    omega
  · rintro rfl
    rw [Int.sub_self]
    exact Int.dvd_zero _

theorem wrap_eq_zero_iff : type.wrap n = 0 ↔ (2 ^ type.width : Int) ∣ n := by
  rw [← type.wrap_zero, wrap_eq_wrap_iff, Int.sub_zero]

/-! ### The integers of a type -/

section Range

variable (hwidth : 0 < type.width)

include hwidth

theorem two_le_modulus : (2 : Int) ≤ 2 ^ type.width := by
  calc (2 : Int) = 2 ^ 1 := (pow_one 2).symm
    _ ≤ 2 ^ type.width := pow_le_pow_right₀ (by omega) hwidth

theorem lowest_cases : type.unsigned = true ∧ type.lowest = 0 ∨
    type.unsigned = false ∧ 2 * type.lowest = -2 ^ type.width := by
  obtain ⟨width, unsigned⟩ := type
  cases unsigned with
  | true => exact Or.inl ⟨rfl, rfl⟩
  | false =>
    obtain ⟨k, rfl⟩ := Nat.exists_eq_add_of_lt hwidth
    refine Or.inr ⟨rfl, ?_⟩
    change (2 : Int) * -2 ^ (0 + k + 1 - 1) = -2 ^ (0 + k + 1)
    rw [show 0 + k + 1 - 1 = k by omega, zero_add, pow_succ]
    ring

theorem wrap_eq_self_iff : type.wrap n = n ↔ type.lowest ≤ n ∧ n < type.lowest + 2 ^ type.width := by
  obtain ⟨width, unsigned⟩ := type
  cases unsigned with
  | true =>
    rw [wrap_unsigned_eq_iff, lowest, if_pos rfl, Int.zero_add]
  | false =>
    have hlowest : lowest ⟨width, false⟩ = -2 ^ (width - 1) := rfl
    rcases @lowest_cases ⟨width, false⟩ hwidth with h | h
    · exact absurd h.1 Bool.false_ne_true
    · have hhalf : (2 : Int) * -2 ^ (width - 1) = -2 ^ width := h.2
      rw [wrap_signed_eq_iff hwidth, hlowest]
      dsimp only
      omega

theorem lowest_le_wrap (n : Int) : type.lowest ≤ type.wrap n :=
  ((wrap_eq_self_iff hwidth).mp (type.wrap_wrap n)).1

theorem wrap_lt (n : Int) : type.wrap n < type.lowest + 2 ^ type.width :=
  ((wrap_eq_self_iff hwidth).mp (type.wrap_wrap n)).2

theorem wrap_lowest : type.wrap type.lowest = type.lowest :=
  (wrap_eq_self_iff hwidth).mpr ⟨le_refl _, by have := two_le_modulus hwidth; omega⟩

theorem wrap_eq_of_dvd (hdvd : (2 ^ type.width : Int) ∣ n - m) (hlow : type.lowest ≤ m)
    (hhigh : m < type.lowest + 2 ^ type.width) : type.wrap n = m :=
  (wrap_eq_wrap_iff.mpr hdvd).trans ((wrap_eq_self_iff hwidth).mpr ⟨hlow, hhigh⟩)

/-- As many neighbours as the type has integers are cut off alike only if the first becomes the lowest. -/
theorem forall_wrapsAlike_iff :
    (∀ m, n ≤ m → m < n + 2 ^ type.width → type.WrapsAlike m n) ↔ type.wrap n = type.lowest := by
  have hpos := two_le_modulus hwidth
  constructor
  · intro h
    have hlast := h (n + 2 ^ type.width - 1) (by omega) (by omega)
    rw [WrapsAlike] at hlast
    have hlow := lowest_le_wrap hwidth n
    have hhigh := wrap_lt hwidth (n + 2 ^ type.width - 1)
    omega
  · intro h m hle hlt
    have hwrap : type.wrap m = m + (type.lowest - n) := by
      refine wrap_eq_of_dvd hwidth ?_ (by omega) (by omega)
      rw [show m - (m + (type.lowest - n)) = -(type.lowest - n) by omega, ← h]
      exact (type.dvd_wrap_sub n).neg_right
    rw [WrapsAlike, hwrap, h]
    omega

theorem dvd_two_mul_lowest : (2 ^ type.width : Int) ∣ 2 * type.lowest := by
  rcases lowest_cases hwidth with h | h
  · rw [h.2]
    exact Int.dvd_zero _
  · rw [h.2]
    exact (Int.dvd_refl _).neg_right

/-- Only the addition of zero cuts off all integers of a type alike. -/
theorem forall_wrapsAlike_add_iff {c k : Int} (hc : type.wrap c = c) (hk : type.wrap k = k) :
    (∀ n, type.wrap n = n → type.WrapsAlike (n + c) (k + c)) ↔ c = 0 := by
  have hlow := wrap_lowest hwidth
  have hbase : (∀ n, type.wrap n = n → type.WrapsAlike (n + c) (k + c)) ↔
      ∀ m, type.lowest + c ≤ m → m < type.lowest + c + 2 ^ type.width → type.WrapsAlike m (type.lowest + c) := by
    constructor
    · intro h m hle hlt
      have hm := h (m - c) ((wrap_eq_self_iff hwidth).mpr ⟨by omega, by omega⟩)
      rw [Int.sub_add_cancel] at hm
      exact hm.trans (h _ hlow).symm
    · intro h n hn
      have hn' := (wrap_eq_self_iff hwidth).mp hn
      have hk' := (wrap_eq_self_iff hwidth).mp hk
      exact (h (n + c) (by omega) (by omega)).trans (h (k + c) (by omega) (by omega)).symm
  rw [hbase, forall_wrapsAlike_iff hwidth]
  constructor
  · intro h
    have hdvd := type.dvd_wrap_sub (type.lowest + c)
    rw [h, show type.lowest - (type.lowest + c) = -c by omega, Int.dvd_neg] at hdvd
    exact hc.symm.trans (wrap_eq_zero_iff.mpr hdvd)
  · rintro rfl
    rw [Int.add_zero, hlow]

/-- Only the subtraction from the integer with all bits set cuts off all integers of a type alike. -/
theorem forall_wrapsAlike_sub_iff {c k : Int} (hc : type.wrap c = c) (hk : type.wrap k = k) :
    (∀ n, type.wrap n = n → type.WrapsAlike (c - n) (c - k)) ↔ c = type.wrap (-1) := by
  have hbase : (∀ n, type.wrap n = n → type.WrapsAlike (c - n) (c - k)) ↔
      ∀ m, c - (type.lowest + 2 ^ type.width - 1) ≤ m → m < c - (type.lowest + 2 ^ type.width - 1) + 2 ^ type.width →
          type.WrapsAlike m (c - (type.lowest + 2 ^ type.width - 1)) := by
    constructor
    · intro h m hle hlt
      have hm := h (c - m) ((wrap_eq_self_iff hwidth).mpr ⟨by omega, by omega⟩)
      rw [Int.sub_sub_self] at hm
      exact hm.trans (h _ ((wrap_eq_self_iff hwidth).mpr ⟨by omega, by omega⟩)).symm
    · intro h n hn
      have hn' := (wrap_eq_self_iff hwidth).mp hn
      have hk' := (wrap_eq_self_iff hwidth).mp hk
      exact (h (c - n) (by omega) (by omega)).trans (h (c - k) (by omega) (by omega)).symm
  have hlow : ∀ n, type.wrap n = type.lowest ↔ type.wrap n = type.wrap type.lowest := fun n => by
    rw [wrap_lowest hwidth]
  rw [hbase, forall_wrapsAlike_iff hwidth, hlow, wrap_eq_wrap_iff,
    show c - (type.lowest + 2 ^ type.width - 1) - type.lowest = c - -1 - (2 * type.lowest + 2 ^ type.width) by omega,
    dvd_sub_left ((dvd_two_mul_lowest hwidth).add (Int.dvd_refl _)), ← wrap_eq_wrap_iff, hc]

theorem wrap_neg_one_ne_zero : type.wrap (-1) ≠ 0 := by
  intro h
  have hdvd := Int.le_of_dvd (by decide) ((Int.dvd_neg).mpr (wrap_eq_zero_iff.mp h))
  have hpos := two_le_modulus hwidth
  omega

theorem wrap_neg_lowest : type.wrap (-type.lowest) = type.lowest := by
  have hpos := two_le_modulus hwidth
  refine wrap_eq_of_dvd hwidth ?_ (le_refl _) (by omega)
  rw [show -type.lowest - type.lowest = -(2 * type.lowest) by omega]
  exact (dvd_two_mul_lowest hwidth).neg_right

theorem wrap_neg_of_ne_lowest (hn : type.wrap n = n) (hne : n ≠ type.lowest) :
    type.wrap (-n) = 2 * type.lowest + 2 ^ type.width - n := by
  have hrange := (wrap_eq_self_iff hwidth).mp hn
  refine wrap_eq_of_dvd hwidth ?_ (by omega) (by omega)
  rw [show -n - (2 * type.lowest + 2 ^ type.width - n) = -(2 * type.lowest + 2 ^ type.width) by omega]
  exact ((dvd_two_mul_lowest hwidth).add (Int.dvd_refl _)).neg_right

/-- Negation changes only the order to the lowest integer. -/
theorem wrapsAlike_neg_iff (hn : type.wrap n = n) (hm : type.wrap m = m) :
    type.WrapsAlike (-n) (-m) ↔ (n = type.lowest ↔ m = type.lowest) := by
  have hpos := two_le_modulus hwidth
  have hlowest := wrap_neg_lowest hwidth
  rw [WrapsAlike]
  by_cases hnlow : n = type.lowest
  · by_cases hmlow : m = type.lowest
    · rw [hnlow, hmlow]
      exact iff_of_true rfl Iff.rfl
    · rw [wrap_neg_of_ne_lowest hwidth hm hmlow, hnlow, hlowest]
      refine iff_of_false (by omega) fun h => hmlow (h.mp rfl)
  · rw [wrap_neg_of_ne_lowest hwidth hn hnlow]
    by_cases hmlow : m = type.lowest
    · rw [hmlow, hlowest]
      refine iff_of_false (by omega) fun h => hnlow (h.mpr rfl)
    · rw [wrap_neg_of_ne_lowest hwidth hm hmlow, Int.sub_neg, Int.sub_neg, Int.sub_add_cancel, Int.sub_add_cancel]
      exact iff_of_true rfl (iff_of_false hnlow hmlow)

/-- Only odd factors keep all integers but zero away from zero. -/
theorem forall_wrap_mul_eq_zero_iff {c : Int} : (∀ n, type.wrap n = n → (type.wrap (n * c) = 0 ↔ n = 0)) ↔ Odd c := by
  constructor
  · intro h
    by_contra hodd
    obtain ⟨k, rfl⟩ := Int.not_odd_iff_even.mp hodd
    obtain ⟨w, hw⟩ := Nat.exists_eq_add_of_lt hwidth
    rw [zero_add] at hw
    have hhalf : (2 : Int) ^ type.width = 2 ^ w * 2 := by rw [hw, pow_succ]
    have hzero : type.wrap (type.wrap (2 ^ w) * (k + k)) = 0 := by
      obtain ⟨q, hq⟩ := type.dvd_wrap_sub (2 ^ w)
      refine wrap_eq_zero_iff.mpr ⟨k + q * (k + k), ?_⟩
      rw [show type.wrap (2 ^ w) = 2 ^ w + 2 ^ type.width * q by omega, hhalf]
      ring
    have hdvd := wrap_eq_zero_iff.mp ((h _ (type.wrap_wrap _)).mp hzero)
    have hle := Int.le_of_dvd (by positivity) hdvd
    have hpos : (0 : Int) < 2 ^ w := by positivity
    omega
  · intro hodd n hn
    constructor
    · intro hzero
      have hcoprime : IsCoprime ((2 : Int) ^ type.width) c := (Int.isCoprime_two_left.mpr hodd).pow_left
      have hdvd := hcoprime.dvd_of_dvd_mul_right (wrap_eq_zero_iff.mp hzero)
      rw [← hn]
      exact wrap_eq_zero_iff.mpr hdvd
    · rintro rfl
      rw [Int.zero_mul]
      exact type.wrap_zero

theorem exists_mul_overflow {c : Int} (hsigned : type.unsigned = false) (hc : type.wrap c = c) (hzero : c ≠ 0)
    (hone : c ≠ 1) : ∃ n, type.wrap n = n ∧ -type.lowest ≤ n * c ∧ n * c < 2 ^ type.width := by
  have hlowest := lowest_cases hwidth
  rw [hsigned] at hlowest
  have hhalf := (hlowest.resolve_left fun h => Bool.false_ne_true h.1).2
  have hpos := two_le_modulus hwidth
  have hrange := (wrap_eq_self_iff hwidth).mp hc
  -- the multiple of the factor's size at the middle of the modulus or just above it
  obtain ⟨k, hlow, hhigh⟩ : ∃ k, -type.lowest ≤ k * |c| ∧ k * |c| < -type.lowest + |c| := by
    have hcpos : 0 < |c| := abs_pos.mpr hzero
    refine ⟨(-type.lowest + |c| - 1) / |c|, ?_, ?_⟩
    · have := Int.lt_ediv_add_one_mul_self (-type.lowest + |c| - 1) hcpos
      rw [Int.add_mul, Int.one_mul] at this
      omega
    · have := Int.ediv_mul_le (-type.lowest + |c| - 1) hcpos.ne'
      omega
  have hkpos : 0 < k := by
    by_contra hk
    have := Int.mul_nonpos_of_nonpos_of_nonneg (not_lt.mp hk) (abs_nonneg c)
    omega
  rcases abs_cases c with habs | habs
  · rw [habs.1] at hlow hhigh
    refine ⟨k, (wrap_eq_self_iff hwidth).mpr ⟨by omega, ?_⟩, hlow, by omega⟩
    have htwice : k * 2 ≤ k * c := Int.mul_le_mul_of_nonneg_left (by omega) hkpos.le
    omega
  · rw [habs.1] at hlow hhigh
    rw [← Int.neg_mul_comm] at hlow
    refine ⟨-k, (wrap_eq_self_iff hwidth).mpr ⟨?_, by omega⟩, hlow, by rw [Int.neg_mul_comm]; omega⟩
    by_contra hk
    have hmore : (-type.lowest + 1) * -c ≤ k * -c := Int.mul_le_mul_of_nonneg_right (by omega) (by omega)
    have honce : -type.lowest * 1 ≤ -type.lowest * -c := Int.mul_le_mul_of_nonneg_left (by omega) (by omega)
    rw [Int.add_mul, Int.one_mul] at hmore
    omega

end Range

end IntType
