import EnzymeJax.Library.IntType
import Mathlib.Data.ZMod.Basic

/-!
# Integers in doubles

What a double makes of an integer, and integers of a type as residues.
-/

/-- The nearest integer that a double holds, with 53 significant bits. Ties go to an even significand. -/
def roundDouble (n : Int) : Int :=
  let unit : Int := 2 ^ (n.natAbs.log2 - 52)
  let q := n / unit
  let r := n % unit
  unit * if 2 * r < unit ∨ 2 * r = unit ∧ q % 2 = 0 then q else q + 1

theorem roundDouble_of_lt {n : Int} (h : n.natAbs < 2 ^ 53) : roundDouble n = n := by
  have hlog : n.natAbs.log2 - 52 = 0 := by
    by_cases hzero : n.natAbs = 0
    · rw [hzero]
      rfl
    · have hlt := (Nat.log2_lt hzero).mpr h
      omega
  simp [roundDouble, hlog]

namespace IntType

variable {type : IntType} {n m : Int}

theorem wrap_eq_wrap_iff_zmod : type.wrap n = type.wrap m ↔ (n : ZMod (2 ^ type.width)) = m := by
  rw [wrap_eq_wrap_iff, eq_comm, ZMod.intCast_eq_intCast_iff_dvd_sub]
  push_cast
  rfl

@[simp] theorem zmod_wrap (type : IntType) (n : Int) : (type.wrap n : ZMod (2 ^ type.width)) = n :=
  wrap_eq_wrap_iff_zmod.mp (type.wrap_wrap n)

theorem zmod_wrap_of_le {width : Nat} (h : width ≤ type.width) (n : Int) : (type.wrap n : ZMod (2 ^ width)) = n := by
  rw [eq_comm, ZMod.intCast_eq_intCast_iff_dvd_sub]
  push_cast
  exact (pow_dvd_pow 2 h).trans (type.dvd_wrap_sub n)

/-- The integer with the same bits, read as a signed one. -/
def signed (type : IntType) (n : Int) : Int := wrap ⟨type.width, false⟩ n

@[simp] theorem zmod_signed (type : IntType) (n : Int) : (type.signed n : ZMod (2 ^ type.width)) = n :=
  zmod_wrap ⟨type.width, false⟩ n

theorem signed_congr (h : type.wrap n = type.wrap m) : type.signed n = type.signed m := by
  have hdvd : (2 ^ type.width : Int) ∣ n - m := wrap_eq_wrap_iff.mp h
  exact wrap_eq_wrap_iff.mpr hdvd

theorem natAbs_signed_le (type : IntType) (hwidth : 0 < type.width) (n : Int) :
    (type.signed n).natAbs ≤ 2 ^ (type.width - 1) := by
  have h := (wrap_signed_eq_iff hwidth).mp (wrap_wrap ⟨type.width, false⟩ n)
  have hcast : ((2 ^ (type.width - 1) : Nat) : Int) = 2 ^ (type.width - 1) := by push_cast; rfl
  rw [signed]
  omega

end IntType
