import EnzymeJax.Library.Along

/-!
# Rotate, wrap and extend

What `lowerRotate`, `lowerWrap` and `lowerExtend` make of the operations: concatenations of slices of
the operand along the dimension.
-/

namespace EnzymeJax

open Tensor Option

variable {α : Type*}

/-- The first `amount` elements move to the end. -/
def lowerRotate (dim : Nat) (amount : Int) (x : Tensor α) : Option (Tensor α) := do
  let sl0 ← slice (sliceAlong dim amount (coord x.shape dim) x.shape) x
  let sl1 ← slice (sliceAlong dim 0 amount x.shape) x
  concatenate dim [sl0, sl1]

/-- An optional slice of the operand, as the list of operands it adds to a concatenation. -/
def border (present : Bool) (dim : Nat) (start limit : Int) (x : Tensor α) :
    Option (List (Tensor α)) :=
  if present then (slice (sliceAlong dim start limit x.shape) x).map ([·]) else some []

/-- The last `lhs` elements come before the operand, the first `rhs` after it. -/
def lowerWrap (dim : Nat) (lhs rhs : Int) (x : Tensor α) : Option (Tensor α) := do
  let sl0 ← border (lhs ≠ 0) dim (coord x.shape dim - lhs) (coord x.shape dim) x
  let sl1 ← border (rhs ≠ 0) dim 0 rhs x
  concatenate dim (sl0 ++ x :: sl1)

/-- The first `lhs` elements come before the operand, the last `rhs` after it. -/
def lowerExtend (dim : Nat) (lhs rhs : Int) (x : Tensor α) : Option (Tensor α) := do
  let sl0 ← border (lhs ≠ 0) dim 0 lhs x
  let sl1 ← border (rhs ≠ 0) dim (coord x.shape dim - rhs) (coord x.shape dim) x
  concatenate dim (sl0 ++ x :: sl1)

section

variable {dim n amount lhs rhs : Nat} {shape : List Nat} {f : List Nat → Nat → α} {x : Tensor α}

theorem along_lowerRotate (hd : dim < shape.length) (h : Along dim shape n f x) (hle : amount ≤ n) :
    ∃ y, lowerRotate dim amount x = some y ∧
      Along dim shape n (appendLine (n - amount) (fun idx k => f idx (amount + k)) f) y := by
  have hcoord := h.coord_shape hd
  obtain ⟨sl0, hsl0, halong0⟩ := h.slice_nat amount n amount (n - amount) hd rfl (by omega) (by omega)
  obtain ⟨sl1, hsl1, halong1⟩ := h.slice_start amount amount hd rfl hle
  obtain ⟨y, hy, halong⟩ := Along.concatenate_two hd halong0 halong1
  refine ⟨y, ?_, ?_⟩
  · rw [lowerRotate, hcoord, hsl0, hsl1]
    exact hy
  · rwa [Nat.sub_add_cancel hle] at halong

theorem along_rotate (hd : dim < shape.length) (h : Along dim shape n f x) (hlt : amount < n) :
    ∃ y, lowerRotate dim amount x = some y ∧ Along dim shape n (fun idx k => f idx ((k + amount) % n)) y := by
  obtain ⟨y, hy, halong⟩ := along_lowerRotate hd h hlt.le
  refine ⟨y, hy, halong.congr fun idx _ k hk => ?_⟩
  rw [appendLine]
  by_cases hbefore : k < n - amount
  · rw [if_pos hbefore, Nat.mod_eq_of_lt (by omega), add_comm]
  · rw [if_neg hbefore, Nat.mod_eq_sub_mod (by omega), Nat.mod_eq_of_lt (by omega)]
    congr 1
    omega

theorem along_border (n' start : Nat) (hd : dim < shape.length) (h : Along dim shape n f x) (hle : start + n' ≤ n) :
    ∃ sl, border ((n' : Int) ≠ 0) dim start (start + n') x = some sl ∧
      Along.Optional dim shape n' (fun idx k => f idx (start + k)) sl := by
  by_cases hzero : n' = 0
  · subst hzero
    exact ⟨[], rfl, .none _⟩
  · obtain ⟨sl, hsl, halong⟩ := h.slice start (start + n') hd (by omega) (by omega) (by omega)
    have hsize : ((start : Int) + n' - start).toNat = n' := by omega
    rw [hsize, Int.toNat_natCast] at halong
    refine ⟨[sl], ?_, .some halong⟩
    rw [border, hsl, if_pos (by simpa using hzero)]
    rfl

theorem along_borders (lhs rhs start₀ start₁ : Nat) (hd : dim < shape.length)
    (h : Along dim shape n f x) (h₀ : start₀ + lhs ≤ n) (h₁ : start₁ + rhs ≤ n) :
    ∃ sl0 sl1 y, border ((lhs : Int) ≠ 0) dim start₀ (start₀ + lhs) x = some sl0 ∧
      border ((rhs : Int) ≠ 0) dim start₁ (start₁ + rhs) x = some sl1 ∧
      concatenate dim (sl0 ++ x :: sl1) = some y ∧
      Along dim shape (lhs + (n + rhs))
        (appendLine lhs (fun idx k => f idx (start₀ + k)) (appendLine n f fun idx k => f idx (start₁ + k))) y := by
  obtain ⟨sl0, hsl0, halong0⟩ := along_border lhs start₀ hd h h₀
  obtain ⟨sl1, hsl1, halong1⟩ := along_border rhs start₁ hd h h₁
  obtain ⟨y, hy, halong⟩ := Along.concatenate_optional hd halong0 h halong1
  exact ⟨sl0, sl1, y, hsl0, hsl1, hy, halong⟩

section

variable (hd : dim < shape.length) (h : Along dim shape n f x) (hlhs : lhs ≤ n) (hrhs : rhs ≤ n)

include hd h hlhs hrhs

theorem along_lowerWrap :
    ∃ y, lowerWrap dim lhs rhs x = some y ∧ Along dim shape (lhs + (n + rhs))
        (appendLine lhs (fun idx k => f idx (n - lhs + k)) (appendLine n f f)) y := by
  obtain ⟨sl0, sl1, y, hsl0, hsl1, hy, halong⟩ :=
    along_borders lhs rhs (n - lhs) 0 hd h (by omega)
      (by omega)
  simp only [zero_add] at halong
  refine ⟨y, ?_, halong⟩
  rw [lowerWrap, h.coord_shape hd]
  have hstart : ((n - lhs : Nat) : Int) = n - lhs := by omega
  rw [hstart, Int.sub_add_cancel] at hsl0
  rw [Int.natCast_zero, Int.zero_add] at hsl1
  simp only [hsl0, hsl1, bind_eq_bind, bind_some, hy]

theorem along_lowerExtend :
    ∃ y, lowerExtend dim lhs rhs x = some y ∧ Along dim shape (lhs + (n + rhs))
        (appendLine lhs f (appendLine n f fun idx k => f idx (n - rhs + k))) y := by
  obtain ⟨sl0, sl1, y, hsl0, hsl1, hy, halong⟩ :=
    along_borders lhs rhs 0 (n - rhs) hd h (by omega)
      (by omega)
  simp only [zero_add] at halong
  refine ⟨y, ?_, halong⟩
  rw [lowerExtend, h.coord_shape hd]
  have hstart : ((n - rhs : Nat) : Int) = n - rhs := by omega
  rw [hstart, Int.sub_add_cancel] at hsl1
  rw [Int.natCast_zero, Int.zero_add] at hsl0
  simp only [hsl0, hsl1, bind_eq_bind, bind_some, hy]

end

end

end EnzymeJax
