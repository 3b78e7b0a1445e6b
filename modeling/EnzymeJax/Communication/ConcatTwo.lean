import EnzymeJax.Communication.Border

/-!
# A small operand next to a large one

One of two sharded operands is smaller than a shard of the result. Every device puts a piece of a neighbour's large
part before or after its own, so only the device at the end has any of the small operand. The result is right
for an empty small operand.
-/

namespace EnzymeJax.ConcatTwoOperandsCommOptimize

open Tensor List Option

variable {α : Type*}

/-- Whether the left operand is the small one, its size converted to an `int`. -/
def concatLeft (left right numDevices : Nat) : Bool :=
  int32 left < ((left + right) / numDevices : Nat)

/-- When the pattern produces a manual computation for operands of these sizes: one of them is smaller
than a shard and the other one is not. -/
def Fires (mesh : Mesh) (sharding : Sharding) (dim left right : Nat) : Prop :=
  let numDevices := numShards mesh (sharding.getD dim [])
  let shardSize := (left + right) / numDevices
  int32 left ≠ int32 right ∧ (concatLeft left right numDevices = true ↔ (shardSize : Int) ≤ int32 right)

instance (mesh : Mesh) (sharding : Sharding) (dim left right : Nat) :
    Decidable (Fires mesh sharding dim left right) :=
  inferInstanceAs (Decidable (_ ∧ (_ ↔ _)))

/-- What is missing to a multiple of the number of devices. -/
def padding (n numDevices : Nat) : Nat :=
  let extra := n % numDevices
  if extra = 0 then 0 else numDevices - extra

def padOperand [Zero α] (dim low high : Nat) (x : Tensor α) : Option (Tensor α) :=
  if low = 0 ∧ high = 0 then some x else pad (padAlong x.shape.length dim low high) 0 x

/-- The slice of the large part that goes to a neighbour. -/
def commSlice (dim : Nat) (concatLeft : Bool) (extendArg mainArg : Tensor (Nat → α)) :
    Option (Tensor (Nat → α)) :=
  let n₁ := int32 (coord extendArg.shape dim)
  let n₂ := int32 (coord mainArg.shape dim)
  if concatLeft then (intResult (n₂ - n₁)).bind fun start =>
    slice (sliceAlong dim start (coord mainArg.shape dim) mainArg.shape) mainArg
  else slice (sliceAlong dim 0 n₁ mainArg.shape) mainArg

def sliceStart (concatLeft : Bool) (extendSize numDevices device : Nat) : Int :=
  let alpha := BitVec.ofNat 32 (extendSize / numDevices)
  if concatLeft then ((partitionId device - 1) * alpha).toNat
  else (BitVec.ofNat 32 extendSize - (partitionId device + 1) * alpha).toNat

def body [Zero α] (mesh : Mesh) (axis dim numDevices : Nat) (concatLeft : Bool) (localSize : Nat)
    (arg₀ arg₁ : Tensor (Nat → α)) : Option (Tensor (Nat → α)) := do
  let extendArg := if concatLeft then arg₀ else arg₁
  let mainArg := if concatLeft then arg₁ else arg₀
  let commSlice ← commSlice dim concatLeft extendArg mainArg
  let commResult ← collectivePermute mesh.prod
    (generateShiftPairs mesh axis (!concatLeft) false false) commSlice
  let ifCond ← ifDevice (if concatLeft then isLeftSide numDevices else isRightSide numDevices)
    extendArg commResult
  let concatResult ← concatenate dim (if concatLeft then [ifCond, mainArg] else [mainArg, ifCond])
  dynamicSliceDevice
    (startsAlong concatResult.shape.length dim (sliceStart concatLeft (coord extendArg.shape dim) numDevices))
    (concatResult.shape.set dim localSize) concatResult

/-- What the rewritten program makes of two operands. -/
def Computes [Zero α] (mesh : Mesh) (sharding : Sharding) (dim axis : Nat) (x₀ x₁ y : Tensor α) :
    Prop :=
  let numDevices := numShards mesh (sharding.getD dim [])
  let left := coord x₀.shape dim
  let right := coord x₁.shape dim
  let globalSize := (left + padding left numDevices) + (right + padding right numDevices)
  ∃ input₀ input₁ result, padOperand dim (padding left numDevices) 0 x₀ = some input₀ ∧
    padOperand dim 0 (padding right numDevices) x₁ = some input₁ ∧
    ManualComputation₂ mesh sharding
      (body mesh axis dim numDevices (concatLeft left right numDevices) (globalSize / numDevices))
      input₀ input₁ result ∧
    result.shape = x₀.shape.set dim globalSize ∧
    removePadding dim (padding left numDevices) (x₀.shape.set dim (left + right)) result = some y

/-! ### The lines of the local program -/

variable {y x₀ x₁ : Tensor α} {size n : Nat}

section

variable {mesh : Mesh} {sharding : Sharding} {shape : List Nat} {dim axis e m left right numDevices : Nat}

/-- Element `k` of what a device has when the left operand is the small one; `f` and `g` are the padded operands
along the line. -/
def leftLine (mesh : Mesh) (axis e m : Nat) (f g : Nat → α) (device k : Nat) : α :=
  let position := devicePos mesh axis device
  let neighbour := (position + coord mesh axis - 1) % coord mesh axis
  if k < e then
    if isLeftSide (coord mesh axis) device then f (position * e + k)
    else g (neighbour * m + (m - e + k))
  else g (position * m + (k - e))

/-- Element `k` of what a device has when the right operand is the small one. -/
def rightLine (mesh : Mesh) (axis m e : Nat) (f g : Nat → α) (device k : Nat) : α :=
  let position := devicePos mesh axis device
  let neighbour := (position + 1) % coord mesh axis
  if k < m then f (position * m + k)
  else if isRightSide (coord mesh axis) device then g (position * e + (k - m))
  else f (neighbour * m + (k - m))

theorem clampStart_self (n : Nat) (start : Int) : clampStart n n start = 0 := by
  rw [clampStart]
  omega

variable [Zero α] {y₀ y₁ : Tensor α}

/-- The local program computes the lines of `line` from equal shards of extents `n₀` and `n₁`. -/
def ComputesLines (mesh : Mesh) (sharding : Sharding) (shape : List Nat) (dim axis : Nat)
    (small : Bool) (n₀ n₁ : Nat) (line : (Nat → α) → (Nat → α) → Nat → Nat → α) : Prop :=
  ∀ y₀ y₁ : Tensor α, y₀.shape = shape.set dim (coord mesh axis * n₀) →
    y₁.shape = shape.set dim (coord mesh axis * n₁) → ∃ locals line',
      body mesh axis dim (coord mesh axis) small (n₀ + n₁) (shard mesh sharding y₀)
        (shard mesh sharding y₁) = some locals ∧
      Along dim (localShape mesh sharding shape) (n₀ + n₁) line' locals ∧
      ∀ idx k, ∀ device < mesh.prod, line' idx k device =
        line (fun q => y₀.get (lineAt mesh sharding shape dim device idx q))
          (fun q => y₁.get (lineAt mesh sharding shape dim device idx q)) device k

omit [Zero α] in
theorem dim_lt_localShape (h : ShardedAlong mesh sharding (shape.set dim (coord mesh axis * m)) dim axis m) :
    dim < shape.length ∧ dim < (localShape mesh sharding shape).length := by
  have hlt := h.dim_lt
  have hlen := h.localShape_length
  rw [localShape_set h.axis, length_set, length_set] at hlen
  rw [length_set] at hlt
  exact ⟨hlt, hlen ▸ hlt⟩

omit [Zero α] in
theorem shardLine_neighbour {c device : Nat} {idx : List Nat} {k : Nat}
    (h : ShardedAlong mesh sharding (shape.set dim (coord mesh axis * size)) dim axis size)
    (hdev : device < mesh.prod) (hc : c < coord mesh axis) :
    y.get (lineAt mesh sharding shape dim (moveAlong mesh axis c device) idx
        (devicePos mesh axis (moveAlong mesh axis c device) * size + k)) =
      y.get (lineAt mesh sharding shape dim device idx (c * size + k)) := by
  have hline : lineAt mesh sharding _ dim (moveAlong mesh axis c device) idx (c * size + k) = _ :=
    h.lineAt_moveAlong hdev hc
  rw [lineAt_set, lineAt_set] at hline
  rw [devicePos_moveAlong hdev h.axis_lt hc, hline]

section

variable (h : ∀ size, ShardedAlong mesh sharding (shape.set dim (coord mesh axis * size)) dim axis size) (hle : e ≤ m)

include h hle

theorem computesLines_left (hm : m < 2 ^ 31) :
    ComputesLines (α := α) mesh sharding shape dim axis true e m (leftLine mesh axis e m) := by
  intro y₀ y₁ hy₀ hy₁
  obtain ⟨-, hd⟩ := dim_lt_localShape (h 0)
  have h₀ := (h e).along_shard_set hy₀
  have h₁ := (h m).along_shard_set hy₁
  obtain ⟨sent, hsent, hsentAlong⟩ := h₁.slice_nat (m - e) m (m - e) e hd (by omega) (by omega) (by omega)
  have hslice : commSlice dim true (shard mesh sharding y₀) (shard mesh sharding y₁) = some sent := by
    have hres : intResult ((m : Int) - e) = some ((m : Int) - e) := if_pos (by omega)
    rw [commSlice, h₀.coord_shape hd, h₁.coord_shape hd, int32_eq hm, int32_eq (hle.trans_lt hm), hres]
    exact hsent
  obtain ⟨comm, hcomm, c, hcommAlong, hc⟩ := along_shift (h 0).axis_lt false hsentAlong
  obtain ⟨cond, hcond, hcondAlong⟩ := Along.ifDevice (isLeftSide (coord mesh axis)) h₀ hcommAlong
  obtain ⟨concat, hconcat, hconcatAlong⟩ := Along.concatenate_two hd hcondAlong h₁
  obtain ⟨locals, hlocals, halong⟩ := hconcatAlong.dynamicSliceDevice hd
    (sliceStart true e (coord mesh axis)) (le_refl (e + m))
  refine ⟨locals, _, ?_, halong, fun idx k device hdev => ?_⟩
  · simp only [body, if_true, Bool.not_true, hslice, hcomm, hcond, hconcat, h₀.coord_shape hd, bind_eq_bind, bind_some]
    exact hlocals
  · rw [clampStart_self, zero_add, appendLine, leftLine]
    split
    · dsimp only
      rw [hc idx k device hdev]
      exact ite_congr rfl (fun _ => rfl)
        fun _ => shardLine_neighbour (h m) hdev (Nat.mod_lt _ (h 0).axis_pos)
    · rfl

theorem computesLines_right (he : e < 2 ^ 31) :
    ComputesLines (α := α) mesh sharding shape dim axis false m e (rightLine mesh axis m e) := by
  intro y₀ y₁ hy₀ hy₁
  obtain ⟨-, hd⟩ := dim_lt_localShape (h 0)
  have h₀ := (h m).along_shard_set hy₀
  have h₁ := (h e).along_shard_set hy₁
  obtain ⟨sent, hsent, hsentAlong⟩ := h₀.slice_start e e hd rfl hle
  have hslice : commSlice dim false (shard mesh sharding y₁) (shard mesh sharding y₀) = some sent := by
    rw [commSlice, h₁.coord_shape hd, int32_eq he]
    exact hsent
  obtain ⟨comm, hcomm, c, hcommAlong, hc⟩ := along_shift (h 0).axis_lt true hsentAlong
  obtain ⟨cond, hcond, hcondAlong⟩ := Along.ifDevice (isRightSide (coord mesh axis)) h₁ hcommAlong
  obtain ⟨concat, hconcat, hconcatAlong⟩ := Along.concatenate_two hd h₀ hcondAlong
  obtain ⟨locals, hlocals, halong⟩ := hconcatAlong.dynamicSliceDevice hd
    (sliceStart false e (coord mesh axis)) (le_refl (m + e))
  refine ⟨locals, _, ?_, halong, fun idx k device hdev => ?_⟩
  · simp only [body, Bool.false_eq_true, if_false, Bool.not_false, hslice, hcomm, hcond, hconcat,
      h₁.coord_shape hd, bind_eq_bind, bind_some]
    exact hlocals
  · rw [clampStart_self, zero_add, appendLine, rightLine]
    split
    · rfl
    · dsimp only
      rw [hc idx _ device hdev]
      exact ite_congr rfl (fun _ => rfl)
        fun _ => shardLine_neighbour (h m) hdev (Nat.mod_lt _ (h 0).axis_pos)

end

/-! ### What every device has to have -/

omit [Zero α] in
theorem padding_spec (hpos : 0 < numDevices) :
    numDevices * ((n + padding n numDevices) / numDevices) = n + padding n numDevices ∧
      padding n numDevices < numDevices := by
  have hmod := Nat.mod_lt n hpos
  have hdiv := Nat.div_add_mod n numDevices
  rw [padding]
  split
  · rename_i hzero
    exact ⟨Nat.mul_div_cancel' (Nat.dvd_of_mod_eq_zero hzero), hpos⟩
  · rename_i hextra
    refine ⟨Nat.mul_div_cancel' ⟨n / numDevices + 1, ?_⟩, by omega⟩
    rw [mul_add, mul_one]
    omega

theorem along_padOperand {shape : List Nat} {f : List Nat → Nat → α} {x : Tensor α} (hd : dim < shape.length)
    (h : Along dim shape n f x) (low high : Nat) :
    ∃ y, padOperand dim low high x = some y ∧ Along dim shape (low + n + high)
      (fun idx k => if low ≤ k ∧ k - low < n then f idx (k - low) else 0) y := by
  rw [padOperand]
  split
  · rename_i hzero
    obtain ⟨rfl, rfl⟩ := hzero
    rw [zero_add, add_zero]
    refine ⟨x, rfl, h.congr fun idx _ k hk => ?_⟩
    rw [Nat.sub_zero, if_pos ⟨Nat.zero_le k, hk⟩]
  · exact h.pad hd low high 0

variable {n₀ n₁ : Nat}

variable {small : Bool} {line : (Nat → α) → (Nat → α) → Nat → Nat → α}

/-- The result is exact where every device has the right elements outside of the padding. -/
theorem exact_computes_iff {z : Tensor α} (hmesh : ∀ n ∈ mesh, 0 < n) (h : ∀ size,
      ShardedAlong mesh sharding (shape.set dim (coord mesh axis * size)) dim axis size)
    (hsmall : concatLeft left right (coord mesh axis) = small)
    (hn₀ : (left + padding left (coord mesh axis)) / coord mesh axis = n₀)
    (hn₁ : (right + padding right (coord mesh axis)) / coord mesh axis = n₁) (hx₀ : x₀.shape = shape.set dim left)
    (hx₁ : x₁.shape = shape.set dim right) (hz : z.shape = shape.set dim (left + right))
    (hbody : ComputesLines mesh sharding shape dim axis small n₀ n₁ line) :
    ∃ y₀ y₁ : Tensor α, Along dim shape (coord mesh axis * n₀) (fun idx k =>
        if padding left (coord mesh axis) ≤ k ∧ k - padding left (coord mesh axis) < left then
          x₀.get (idx.set dim (k - padding left (coord mesh axis)))
        else 0) y₀ ∧
      Along dim shape (coord mesh axis * n₁) (fun idx k =>
        if k < right then x₁.get (idx.set dim k) else 0) y₁ ∧
      (Exact (Computes mesh sharding dim axis x₀ x₁) z ↔
        ∀ device < mesh.prod, ∀ idx ∈ indices ((localShape mesh sharding shape).set dim 1),
          lineAt mesh sharding shape dim device idx 0 ∈ indices (shape.set dim 1) →
          ∀ k < n₀ + n₁, ∀ j < left + right,
            devicePos mesh axis device * (n₀ + n₁) + k = padding left (coord mesh axis) + j →
              line (fun q => y₀.get (lineAt mesh sharding shape dim device idx q))
                (fun q => y₁.get (lineAt mesh sharding shape dim device idx q)) device k =
              z.get (lineAt mesh sharding shape dim device idx j)) := by
  obtain ⟨hd, -⟩ := dim_lt_localShape (h 0)
  have hnum : numShards mesh (sharding.getD dim []) = coord mesh axis := by
    rw [getD_eq_getElem?_getD, (h 0).axis, getD_some, numShards_one]
  have hpos := (h 0).axis_pos
  obtain ⟨hglobal₀, hlt₀⟩ := padding_spec (n := left) hpos
  obtain ⟨hglobal₁, hlt₁⟩ := padding_spec (n := right) hpos
  rw [hn₀] at hglobal₀
  rw [hn₁] at hglobal₁
  have hcoord₀ : coord x₀.shape dim = left := by rw [hx₀, coord_set_self hd]
  have hcoord₁ : coord x₁.shape dim = right := by rw [hx₁, coord_set_self hd]
  obtain ⟨y₀, hy₀, hline₀⟩ := along_padOperand hd (Along.of_shape hx₀)
    (padding left (coord mesh axis)) 0
  obtain ⟨y₁, hy₁, hline₁⟩ := along_padOperand hd (Along.of_shape hx₁) 0
    (padding right (coord mesh axis))
  rw [add_zero, add_comm, ← hglobal₀] at hline₀
  rw [zero_add, ← hglobal₁] at hline₁
  obtain ⟨locals, line', hlocals, halong, hlines⟩ := hbody y₀ y₁ hline₀.shape_eq hline₁.shape_eq
  have hsum : left + padding left (coord mesh axis) + (right + padding right (coord mesh axis)) =
      coord mesh axis * (n₀ + n₁) := by
    rw [mul_add, hglobal₀, hglobal₁]
  have hassembled : ∀ y, Computes mesh sharding dim axis x₀ x₁ y ↔
      Assembled mesh sharding dim (padding left (coord mesh axis)) (shape.set dim (left + right))
        (shape.set dim (coord mesh axis * (n₀ + n₁))) locals y := by
    intro y
    have hlocalSize : coord mesh axis * (n₀ + n₁) / coord mesh axis = n₀ + n₁ :=
      Nat.mul_div_cancel_left _ hpos
    have hdivides₀ : Divides mesh sharding y₀.shape := hline₀.shape_eq ▸ (h n₀).divides
    have hdivides₁ : Divides mesh sharding y₁.shape := hline₁.shape_eq ▸ (h n₁).divides
    simp only [Computes, hnum, hcoord₀, hcoord₁, hsum, hlocalSize, hsmall]
    rw [hx₀, set_set, set_set]
    constructor
    · intro ⟨input₀, input₁, result, hinput₀, hinput₁, hmanual, hshape, hremove⟩
      cases hy₀.symm.trans hinput₀
      cases hy₁.symm.trans hinput₁
      exact ⟨result, (manualComputation₂_iff hdivides₀ hdivides₁ hlocals).mp hmanual, hshape, hremove⟩
    · intro ⟨result, hassembles, hshape, hremove⟩
      exact ⟨y₀, y₁, result, hy₀, hy₁,
        (manualComputation₂_iff hdivides₀ hdivides₁ hlocals).mpr hassembles, hshape, hremove⟩
  have hcoord : coord (shape.set dim (left + right)) dim = left + right := coord_set_self hd _
  have hle : Forall₂ (· ≤ ·) ((shape.set dim (left + right)).set dim
      (padding left (coord mesh axis) + coord (shape.set dim (left + right)) dim))
      (shape.set dim (coord mesh axis * (n₀ + n₁))) := by
    rw [hcoord, set_set]
    exact forall₂_le_set (forall₂_same.mpr fun _ _ => le_refl _) (by omega)
  refine ⟨y₀, y₁, hline₀, hline₁.congr fun idx _ k _ => ?_, ?_⟩
  · simp only [zero_le, true_and, Nat.sub_zero]
  have hlocal : localShape mesh sharding (shape.set dim (coord mesh axis * (n₀ + n₁))) =
      (localShape mesh sharding shape).set dim (n₀ + n₁) := by
    rw [localShape_set (h 0).axis, Nat.mul_div_cancel_left _ hpos]
  rw [exact_congr hassembled, exact_iff_lines (h (n₀ + n₁)) (prod_pos hmesh) hlocal halong hz hle, hcoord]
  simp only [lineAt_set, set_set]
  refine forall_congr' fun device => forall_congr' fun hdev => forall_congr' fun idx => ?_
  refine forall_congr' fun hidx => forall_congr' fun hvisible => forall_congr' fun k => ?_
  rw [hlines idx k device hdev]

/-- Operands that are zero but at position `j` of the concatenation tell a wrong element. -/
theorem exists_not_exact [Nontrivial α] (hmesh : ∀ n ∈ mesh, 0 < n) (h : ∀ size,
      ShardedAlong mesh sharding (shape.set dim (coord mesh axis * size)) dim axis size)
    (hsmall : concatLeft left right (coord mesh axis) = small)
    (hn₀ : (left + padding left (coord mesh axis)) / coord mesh axis = n₀)
    (hn₁ : (right + padding right (coord mesh axis)) / coord mesh axis = n₁)
    (hbody : ComputesLines mesh sharding shape dim axis small n₀ n₁ line) (hpos : ∀ n ∈ shape.set dim 1, 0 < n)
    {j : Nat} (hj : j < left + right) (hzero : ∀ (f g : Nat → α) (device : Nat),
      (∀ q < coord mesh axis * n₀, q ≠ padding left (coord mesh axis) + j → f q = 0) →
      (∀ q < coord mesh axis * n₁, left + q ≠ j → g q = 0) →
      device < mesh.prod →
      devicePos mesh axis device = (padding left (coord mesh axis) + j) / (n₀ + n₁) →
      line f g device ((padding left (coord mesh axis) + j) % (n₀ + n₁)) = 0) :
    ∃ x₀ x₁ : Tensor α, x₀.shape = shape.set dim left ∧ x₁.shape = shape.set dim right ∧
      ∀ z, concatenate dim [x₀, x₁] = some z → ¬Exact (Computes mesh sharding dim axis x₀ x₁) z := by
  classical
  obtain ⟨a, ha⟩ := exists_ne (0 : α)
  obtain ⟨hd, -⟩ := dim_lt_localShape (h 0)
  have haxis := (h 0).axis_pos
  obtain ⟨hglobal₀, hlt₀⟩ := padding_spec (n := left) haxis
  obtain ⟨hglobal₁, hlt₁⟩ := padding_spec (n := right) haxis
  rw [hn₀] at hglobal₀
  rw [hn₁] at hglobal₁
  let x₀ : Tensor α := ⟨shape.set dim left, fun idx => if coord idx dim = j then a else 0⟩
  let x₁ : Tensor α := ⟨shape.set dim right, fun idx => if left + coord idx dim = j then a else 0⟩
  refine ⟨x₀, x₁, rfl, rfl, fun z hz hexact => ha ?_⟩
  have hx₀ : Along dim shape left (fun idx k => x₀.get (idx.set dim k)) x₀ := Along.of_shape rfl
  have hx₁ : Along dim shape right (fun idx k => x₁.get (idx.set dim k)) x₁ := Along.of_shape rfl
  obtain ⟨z', hz', halong⟩ := Along.concatenate_two hd hx₀ hx₁
  cases hz.symm.trans hz'
  obtain ⟨y₀, y₁, hline₀, hline₁, hiff⟩ :=
    exact_computes_iff hmesh h hsmall hn₀ hn₁ (rfl : x₀.shape = shape.set dim left)
      (rfl : x₁.shape = shape.set dim right) halong.shape_eq hbody
  -- A device that has the position.
  have hglobal : padding left (coord mesh axis) + j < coord mesh axis * (n₀ + n₁) := by
    rw [mul_add]
    omega
  have hsize : 0 < n₀ + n₁ :=
    Nat.pos_of_mul_pos_left (pos_of_gt hglobal : 0 < coord mesh axis * (n₀ + n₁))
  have hshape : ∀ n ∈ shape.set dim (coord mesh axis * (n₀ + n₁)), 0 < n := by
    intro n hn
    have hzeros := set_mem_indices (zeros_mem_indices hpos) (pos_of_gt hglobal)
    exact pos_of_mem_indices hzeros n hn
  have hc : (padding left (coord mesh axis) + j) / (n₀ + n₁) < coord mesh axis :=
    (Nat.div_lt_iff_lt_mul hsize).mpr hglobal
  obtain ⟨device, hdev, hdevicePos, idx, hidx⟩ : ∃ device < mesh.prod,
      devicePos mesh axis device = (padding left (coord mesh axis) + j) / (n₀ + n₁) ∧
        ∃ idx, idx ∈ indices ((localShape mesh sharding (shape.set dim (coord mesh axis * (n₀ + n₁)))).set dim 1) := by
    obtain ⟨hdev, hdevicePos, idx, hidx, -⟩ :=
      (h (n₀ + n₁)).exists_line hshape (prod_pos hmesh) hc
    exact ⟨_, hdev, hdevicePos, idx, hidx⟩
  have hvisible := (h (n₀ + n₁)).lineAt_mem hdev hsize hidx
  rw [lineAt_set, set_set] at hvisible
  rw [localShape_set (h 0).axis, set_set] at hidx
  have hlen : idx.length = (shape.set dim (coord mesh axis * (n₀ + n₁))).length := by
    rw [length_of_mem_indices hidx, length_set, length_set]
    have hlen := (h 0).localShape_length
    rwa [localShape_set (h 0).axis, length_set, length_set] at hlen
  have hcoord : ∀ q, coord (lineAt mesh sharding shape dim device idx q) dim = q := by
    intro q
    rw [← lineAt_set]
    exact (h (n₀ + n₁)).coord_lineAt hlen
  have hline := hiff.mp hexact device hdev idx hidx hvisible _ (Nat.mod_lt _ hsize) j hj
    (by rw [hdevicePos, mul_comm]; exact Nat.div_add_mod _ _)
  have hright : z.get (lineAt mesh sharding shape dim device idx j) = a := by
    rw [get_lineAt halong hvisible hj, appendLine]
    split
    · rw [set_lineAt]
      exact if_pos (hcoord j)
    · rw [set_lineAt]
      refine if_pos ?_
      rw [hcoord]
      omega
  rw [hright] at hline
  refine hline.symm.trans (hzero _ _ _ (fun q hq hne => ?_) (fun q hq hne => ?_) hdev hdevicePos)
  · rw [get_lineAt hline₀ hvisible hq]
    split
    · rw [set_lineAt]
      refine if_neg ?_
      rw [hcoord]
      omega
    · rfl
  · rw [get_lineAt hline₁ hvisible hq]
    split
    · rw [set_lineAt]
      refine if_neg ?_
      rwa [hcoord]
    · rfl

end

/-! ### The sizes -/

theorem int32_le (n : Nat) : int32 n ≤ n := by
  rw [int32, Int.bmod]
  split
  · omega
  · omega

theorem int32_lt (n : Int) : int32 n < 2 ^ 31 := by
  have hlt := Int.bmod_lt (x := n) (by decide : 0 < 2 ^ 32)
  rw [int32]
  omega

section

variable {numDevices left right n₀ n₁ : Nat}

theorem concatLeft_iff : concatLeft left right numDevices = true ↔
    int32 left < ((left + right) / numDevices : Nat) := decide_eq_true_iff

theorem localSize_le {n' m m' : Nat} (hpos : 0 < numDevices) (hn : (n + padding n numDevices) / numDevices = m)
    (hn' : (n' + padding n' numDevices) / numDevices = m') (hle : n ≤ n') : m ≤ m' := by
  obtain ⟨hspec, hlt⟩ := padding_spec (n := n) hpos
  obtain ⟨hspec', -⟩ := padding_spec (n := n') hpos
  rw [hn] at hspec
  rw [hn'] at hspec'
  refine Nat.le_of_lt_succ (Nat.lt_of_mul_lt_mul_left (a := numDevices) ?_)
  rw [Nat.mul_succ]
  omega

section

variable {m : Nat} (hpos : 0 < numDevices) (hn : (n + padding n numDevices) / numDevices = m)

include hpos hn

theorem localSize_le_self :
    m ≤ n := by
  obtain ⟨hspec, hlt⟩ := padding_spec (n := n) hpos
  rw [hn] at hspec
  refine Nat.le_of_lt_succ (Nat.lt_of_mul_lt_mul_left (a := numDevices) ?_)
  have hmul := Nat.mul_le_mul_right n hpos
  rw [Nat.mul_succ]
  omega

theorem localSize_pos (h : 0 < n) : 0 < m := by
  obtain ⟨hspec, -⟩ := padding_spec (n := n) hpos
  rw [hn] at hspec
  refine pos_of_ne_zero fun hzero => ?_
  rw [hzero, mul_zero] at hspec
  omega

end

theorem sizes_of_fires {mesh : Mesh} {sharding : Sharding} {dim : Nat} (hpos : 0 < numDevices)
    (hnum : numShards mesh (sharding.getD dim []) = numDevices)
    (hn₀ : (left + padding left numDevices) / numDevices = n₀)
    (hn₁ : (right + padding right numDevices) / numDevices = n₁)
    (hsmall : left < (left + right) / numDevices ∨ right < (left + right) / numDevices)
    (hfires : Fires mesh sharding dim left right) :
    concatLeft left right numDevices = true ∧ left < right ∧ n₀ ≤ n₁ ∧ n₁ ≤ 2 ^ 31 ∧ n₀ < 2 ^ 31 ∨
      concatLeft left right numDevices = false ∧ right < left ∧ n₁ ≤ n₀ ∧ n₁ < 2 ^ 31 := by
  obtain ⟨-, hfires⟩ := hfires
  rw [hnum] at hfires
  have hle := int32_le left
  have hle' := int32_le right
  have hlt := int32_lt left
  have hlt' := int32_lt right
  by_cases hleft : concatLeft left right numDevices = true
  · have hlarge := hfires.mp hleft
    have hleftSmall : left < (left + right) / numDevices := by omega
    have hlt : left < right := by omega
    refine .inl ⟨hleft, hlt, localSize_le hpos hn₀ hn₁ hlt.le, ?_, ?_⟩
    · obtain ⟨hspec, hpad⟩ := padding_spec (n := right) hpos
      rw [hn₁] at hspec
      have hshard := Nat.lt_mul_div_succ (left + right) hpos
      have hsucc : n₁ < (left + right) / numDevices + 2 := by
        refine Nat.lt_of_mul_lt_mul_left (a := numDevices) ?_
        rw [mul_add] at hshard ⊢
        omega
      omega
    · have hself := localSize_le_self hpos hn₀
      omega
  · have hlarge := Int.not_le.mp fun hle => hleft (hfires.mpr hle)
    have hint : (((left + right) / numDevices : Nat) : Int) ≤ int32 left :=
      Int.not_lt.mp fun hlt => hleft (concatLeft_iff.mpr hlt)
    have hself := localSize_le_self hpos hn₁
    have hlt : right < left := by omega
    refine .inr ⟨Bool.eq_false_iff.mpr hleft, hlt, localSize_le hpos hn₁ hn₀ hlt.le, ?_⟩
    omega

end

/-! ### Every pair of operands -/

section

variable [Zero α] {mesh : Mesh} {sharding : Sharding} {shape : List Nat} {dim axis left right n₀ n₁ : Nat}

theorem lt_of_computes (h : ∀ size,
      ShardedAlong mesh sharding (shape.set dim (coord mesh axis * size)) dim axis size)
    (hsmall : concatLeft left right (coord mesh axis) = true)
    (hn₀ : (left + padding left (coord mesh axis)) / coord mesh axis = n₀)
    (hn₁ : (right + padding right (coord mesh axis)) / coord mesh axis = n₁) (hx₀ : x₀.shape = shape.set dim left)
    (hx₁ : x₁.shape = shape.set dim right) (hlt : n₀ < 2 ^ 31) (hle : n₁ ≤ 2 ^ 31)
    (hcomputes : Computes mesh sharding dim axis x₀ x₁ y) : n₁ < 2 ^ 31 := by
  obtain ⟨hd, hls⟩ := dim_lt_localShape (h 0)
  have hnum : numShards mesh (sharding.getD dim []) = coord mesh axis := by
    rw [getD_eq_getElem?_getD, (h 0).axis, getD_some, numShards_one]
  have hcoord₀ : coord x₀.shape dim = left := by rw [hx₀, coord_set_self hd]
  have hcoord₁ : coord x₁.shape dim = right := by rw [hx₁, coord_set_self hd]
  obtain ⟨hglobal₀, -⟩ := padding_spec (n := left) (h 0).axis_pos
  obtain ⟨hglobal₁, -⟩ := padding_spec (n := right) (h 0).axis_pos
  rw [hn₀] at hglobal₀
  rw [hn₁] at hglobal₁
  obtain ⟨y₀, y₁, result, hy₀, hy₁, hmanual, -⟩ := hcomputes
  rw [hnum, hcoord₀] at hy₀
  rw [hnum, hcoord₁] at hy₁
  obtain ⟨y₀', hy₀', hline₀⟩ := along_padOperand hd (Along.of_shape hx₀)
    (padding left (coord mesh axis)) 0
  obtain ⟨y₁', hy₁', hline₁⟩ := along_padOperand hd (Along.of_shape hx₁) 0
    (padding right (coord mesh axis))
  cases hy₀.symm.trans hy₀'
  cases hy₁.symm.trans hy₁'
  rw [add_zero, add_comm, ← hglobal₀] at hline₀
  rw [zero_add, ← hglobal₁] at hline₁
  have hshard₀ := (h n₀).along_shard_set hline₀.shape_eq
  have hshard₁ := (h n₁).along_shard_set hline₁.shape_eq
  obtain ⟨-, -, locals, hbody, -⟩ := hmanual
  rw [hnum, hcoord₀, hcoord₁, hsmall, body] at hbody
  obtain ⟨sent, hsent, -⟩ := bind_eq_some_iff.mp hbody
  rw [if_pos rfl, if_pos rfl, commSlice, hshard₀.coord_shape hls, hshard₁.coord_shape hls,
    int32_eq hlt, if_pos rfl] at hsent
  obtain ⟨start, hstart, hslice⟩ := bind_eq_some_iff.mp hsent
  obtain ⟨hstart, -⟩ := intResult_eq hstart
  rw [slice] at hslice
  split at hslice
  · rename_i hok
    rw [sliceAlong_ok_iff (by rwa [hshard₁.length_shape])] at hok
    have hnonneg := hok.1
    refine Nat.lt_of_le_of_ne hle fun heq => ?_
    have hint : int32 n₁ = -2 ^ 31 := by
      rw [heq]
      decide
    rw [hint] at hstart
    have hneg : start < 0 := by omega
    exact absurd hnonneg (Int.not_le.mpr hneg)
  · cases hslice

omit [Zero α] in
theorem block_lt {numDevices c i : Nat} (hc : c < numDevices) (hi : i < size) :
    c * size + i < numDevices * size := by
  have hmul := Nat.mul_le_mul_right size hc
  rw [Nat.succ_mul] at hmul
  omega

section

variable {f g : Nat → α} {device k : Nat} (htwo : 2 ≤ coord mesh axis)
  (hpos : devicePos mesh axis device < coord mesh axis)

include htwo hpos

theorem lines_left (hle : n₀ ≤ n₁) (hn₀ : 0 < n₀) (hk : k < n₀ + n₁)
    (hposition : devicePos mesh axis device * (n₀ + n₁) + k = coord mesh axis * n₀ - 1)
    (hf : ∀ q < coord mesh axis * n₀, q ≠ coord mesh axis * n₀ - 1 → f q = 0)
    (hg : ∀ q < coord mesh axis * n₁, g q = 0) : leftLine mesh axis n₀ n₁ f g device k = 0 := by
  have hdouble := Nat.mul_le_mul_right n₀ htwo
  rw [leftLine]
  split
  · rename_i hfront
    split
    · refine hf _ (block_lt hpos hfront) fun heq => ?_
      rw [mul_add] at hposition
      have hzero : devicePos mesh axis device * n₁ = 0 := by omega
      obtain hfirst | hempty := Nat.mul_eq_zero.mp hzero
      · rw [hfirst, zero_mul] at heq
        omega
      · omega
    · exact hg _ (block_lt (Nat.mod_lt _ (pos_of_gt htwo)) (by omega))
  · exact hg _ (block_lt hpos (by omega))

theorem lines_right (hle : n₁ ≤ n₀) (hn₁ : 0 < n₁) (hk : k < n₀ + n₁)
    (hposition : devicePos mesh axis device * (n₀ + n₁) + k = coord mesh axis * n₀)
    (hf : ∀ q < coord mesh axis * n₀, f q = 0) (hg : ∀ q < coord mesh axis * n₁, q ≠ 0 → g q = 0) :
    rightLine mesh axis n₀ n₁ f g device k = 0 := by
  have hdouble := Nat.mul_le_mul_right n₀ htwo
  rw [rightLine]
  split
  · rename_i hfront
    exact hf _ (block_lt hpos hfront)
  · split
    · refine hg _ (block_lt hpos (by omega)) fun heq => ?_
      rw [mul_add] at hposition
      obtain hfirst | hempty :=
        Nat.mul_eq_zero.mp (by omega : devicePos mesh axis device * n₁ = 0)
      · rw [hfirst, zero_mul] at hposition
        omega
      · omega
    · exact hf _ (block_lt (Nat.mod_lt _ (pos_of_gt htwo)) (by omega))

end

variable [Nontrivial α] (hmesh : ∀ n ∈ mesh, 0 < n)
  (h : ∀ size, ShardedAlong mesh sharding (shape.set dim (coord mesh axis * size)) dim axis size)
  (htwo : 2 ≤ coord mesh axis)
  (hn₀ : (left + padding left (coord mesh axis)) / coord mesh axis = n₀)
  (hn₁ : (right + padding right (coord mesh axis)) / coord mesh axis = n₁)

include hmesh h htwo hn₀ hn₁

theorem exact_iff_left (hsmall : concatLeft left right (coord mesh axis) = true) (hle : n₀ ≤ n₁)
    (hlt : n₀ < 2 ^ 31) (hint : n₁ ≤ 2 ^ 31) :
    (∀ x₀ x₁ : Tensor α, x₀.shape = shape.set dim left → x₁.shape = shape.set dim right →
      ∃ z, concatenate dim [x₀, x₁] = some z ∧ Exact (Computes mesh sharding dim axis x₀ x₁) z) ↔
    (0 ∈ shape.set dim 1 ∨ left = 0) ∧ n₁ < 2 ^ 31 := by
  have haxis := (h 0).axis_pos
  obtain ⟨hd, -⟩ := dim_lt_localShape (h 0)
  obtain ⟨hglobal₀, -⟩ := padding_spec (n := left) haxis
  rw [hn₀] at hglobal₀
  constructor
  · intro hexact
    have hn₁Lt : n₁ < 2 ^ 31 := by
      obtain ⟨z, -, ⟨y, hy⟩, -⟩ := hexact (splat _ 0) (splat _ 0) rfl rfl
      exact lt_of_computes h hsmall hn₀ hn₁ rfl rfl hlt hint hy
    refine ⟨?_, hn₁Lt⟩
    by_contra hcond
    obtain ⟨hnonempty, hleft⟩ := not_or.mp hcond
    have hn₀Pos := localSize_pos haxis hn₀ (pos_of_ne_zero hleft)
    have hposition : padding left (coord mesh axis) + (left - 1) = coord mesh axis * n₀ - 1 := by
      omega
    obtain ⟨x₀, x₁, hx₀, hx₁, hbad⟩ := exists_not_exact (α := α) hmesh h hsmall hn₀ hn₁
      (computesLines_left h hle hn₁Lt) (fun n hn => pos_of_ne_zero fun hzero => hnonempty (hzero ▸ hn))
      (by omega : left - 1 < left + right) fun f g device hf hg hdev hdevicePos => by
        rw [hposition] at hf hdevicePos ⊢
        refine lines_left htwo (devicePos_lt hdev (h 0).axis_lt) hle hn₀Pos
          (Nat.mod_lt _ (by omega)) ?_ hf fun q hq => hg q hq (by omega)
        rw [hdevicePos, mul_comm]
        exact Nat.div_add_mod _ _
    obtain ⟨z, hz, hzExact⟩ := hexact x₀ x₁ hx₀ hx₁
    exact hbad z hz hzExact
  · intro ⟨hcond, hn₁Lt⟩ x₀ x₁ hx₀ hx₁
    obtain ⟨z, hz, halong⟩ := Along.concatenate_two hd (Along.of_shape hx₀) (Along.of_shape hx₁)
    obtain ⟨y₀, y₁, -, hline₁, hiff⟩ := exact_computes_iff hmesh h hsmall hn₀ hn₁ hx₀ hx₁
      halong.shape_eq (computesLines_left h hle hn₁Lt)
    refine ⟨z, hz, hiff.mpr fun device hdev idx _ hvisible k hk j hj hposition => ?_⟩
    obtain hempty | rfl := hcond
    · exact absurd (pos_of_mem_indices hvisible 0 hempty) (lt_irrefl 0)
    · obtain rfl : n₀ = 0 := Nat.le_zero.mp (localSize_le_self haxis hn₀)
      rw [zero_add] at hk hj
      have hq := block_lt (devicePos_lt hdev (h 0).axis_lt) hk
      rw [leftLine, if_neg (Nat.not_lt_zero k), Nat.sub_zero, get_lineAt hline₁ hvisible hq,
        get_lineAt halong hvisible (by omega), appendLine, if_neg (Nat.not_lt_zero j), Nat.sub_zero]
      have heq : devicePos mesh axis device * n₁ + k = j := by
        rw [zero_add] at hposition
        omega
      rw [heq, if_pos hj]

theorem exact_iff_right (hsmall : concatLeft left right (coord mesh axis) = false) (hle : n₁ ≤ n₀) (hlt : n₁ < 2 ^ 31) :
    (∀ x₀ x₁ : Tensor α, x₀.shape = shape.set dim left → x₁.shape = shape.set dim right →
      ∃ z, concatenate dim [x₀, x₁] = some z ∧ Exact (Computes mesh sharding dim axis x₀ x₁) z) ↔
    0 ∈ shape.set dim 1 ∨ right = 0 := by
  have haxis := (h 0).axis_pos
  obtain ⟨hd, -⟩ := dim_lt_localShape (h 0)
  obtain ⟨hglobal₀, -⟩ := padding_spec (n := left) haxis
  rw [hn₀] at hglobal₀
  have hposition : padding left (coord mesh axis) + left = coord mesh axis * n₀ := by omega
  constructor
  · intro hexact
    by_contra hcond
    obtain ⟨hnonempty, hright⟩ := not_or.mp hcond
    have hn₁Pos := localSize_pos haxis hn₁ (pos_of_ne_zero hright)
    obtain ⟨x₀, x₁, hx₀, hx₁, hbad⟩ := exists_not_exact (α := α) hmesh h hsmall hn₀ hn₁
      (computesLines_right h hle hlt) (fun n hn => pos_of_ne_zero fun hzero => hnonempty (hzero ▸ hn))
      (by omega : left < left + right) fun f g device hf hg hdev hdevicePos => by
        rw [hposition] at hf hdevicePos ⊢
        refine lines_right htwo (devicePos_lt hdev (h 0).axis_lt) hle hn₁Pos
          (Nat.mod_lt _ (by omega)) ?_ (fun q hq => hf q hq hq.ne)
          fun q hq hne => hg q hq (by omega)
        rw [hdevicePos, mul_comm]
        exact Nat.div_add_mod _ _
    obtain ⟨z, hz, hzExact⟩ := hexact x₀ x₁ hx₀ hx₁
    exact hbad z hz hzExact
  · intro hcond x₀ x₁ hx₀ hx₁
    obtain ⟨z, hz, halong⟩ := Along.concatenate_two hd (Along.of_shape hx₀) (Along.of_shape hx₁)
    obtain ⟨y₀, y₁, hline₀, -, hiff⟩ := exact_computes_iff hmesh h hsmall hn₀ hn₁ hx₀ hx₁
      halong.shape_eq (computesLines_right h hle hlt)
    refine ⟨z, hz, hiff.mpr fun device hdev idx _ hvisible k hk j hj heq => ?_⟩
    obtain hempty | rfl := hcond
    · exact absurd (pos_of_mem_indices hvisible 0 hempty) (lt_irrefl 0)
    · obtain rfl : n₁ = 0 := Nat.le_zero.mp (localSize_le_self haxis hn₁)
      rw [add_zero] at hk hj heq
      have hq := block_lt (devicePos_lt hdev (h 0).axis_lt) hk
      rw [rightLine, if_pos hk, get_lineAt hline₀ hvisible hq, get_lineAt halong hvisible (by omega),
        appendLine, if_pos hj, heq, Nat.add_sub_cancel_left, if_pos ⟨le_self_add, hj⟩]

omit [Zero α] [Nontrivial α] hmesh h htwo hn₀ hn₁

theorem shardedAlong_of_single {numDevices : Nat} (hpos : 0 < numDevices) (hok : ShardingOk [numDevices] sharding)
    (hrank : sharding.length = shape.length) (haxis : sharding[dim]? = some [0]) (size : Nat) :
    ShardedAlong [numDevices] sharding (shape.set dim (coord [numDevices] 0 * size)) dim 0 size := by
  obtain ⟨hlt, hdim⟩ := List.getElem?_eq_some_iff.mp haxis
  have hd : dim < shape.length := hrank ▸ hlt
  refine ⟨hok, ?_, haxis, hpos, coord_set_self hd _⟩
  refine forall₂_iff_get.mpr ⟨by rw [length_set, hrank], fun i hi hi' => ?_⟩
  rw [get_eq_getElem, get_eq_getElem, getElem_set]
  by_cases heq : dim = i
  · subst heq
    rw [if_pos rfl, hdim, numShards_one]
    exact dvd_mul_right _ _
  · have hempty : sharding[i] = [] := by
      refine eq_nil_iff_forall_not_mem.mpr fun a ha => ?_
      have hmem : a ∈ sharding.flatten := mem_flatten.mpr ⟨_, getElem_mem hi, ha⟩
      obtain rfl : a = 0 := Nat.lt_one_iff.mp (hok.2 a hmem)
      have hdisjoint := pairwise_iff_getElem.mp (nodup_flatten.mp hok.1).2
      have hfront : (0 : Nat) ∈ sharding[dim] := by rw [hdim]; exact mem_cons_self
      obtain hbefore | hafter := Nat.lt_or_gt_of_ne heq
      · exact hdisjoint dim i hlt hi hbefore hfront ha
      · exact hdisjoint i dim hi hlt hafter ha hfront
    rw [hempty]
    exact one_dvd _

/-- The program is exact on every pair of operands if and only if the small operand or another dimension is empty,
and the shards of a large right operand have the extent of an `int`. -/
theorem concatTwo_exact_iff [Zero α] [Nontrivial α] {numDevices : Nat} (htwo : 2 ≤ numDevices)
    (hok : ShardingOk [numDevices] sharding) (hrank : sharding.length = shape.length)
    (haxis : sharding[dim]? = some [0])
    (hsmall : left < (left + right) / numDevices ∨ right < (left + right) / numDevices)
    (hfires : Fires [numDevices] sharding dim left right) :
    (∀ x₀ x₁ : Tensor α, x₀.shape = shape.set dim left → x₁.shape = shape.set dim right →
      ∃ z, concatenate dim [x₀, x₁] = some z ∧ Exact (Computes [numDevices] sharding dim 0 x₀ x₁) z) ↔
    (0 ∈ shape.set dim 1 ∨ min left right = 0) ∧
      (left < right → (right + padding right numDevices) / numDevices < 2 ^ 31) := by
  have hpos : 0 < numDevices := pos_of_gt htwo
  have h : ∀ size, ShardedAlong [numDevices] sharding
      (shape.set dim (coord [numDevices] 0 * size)) dim 0 size :=
    shardedAlong_of_single hpos hok hrank haxis
  have hmesh : ∀ n ∈ [numDevices], 0 < n := fun n hn => mem_singleton.mp hn ▸ hpos
  have hnum : numShards [numDevices] (sharding.getD dim []) = numDevices := by
    rw [getD_eq_getElem?_getD, haxis, getD_some, numShards_one]
    rfl
  obtain ⟨hleft, hlt, hle, hint, hn₀⟩ | ⟨hleft, hlt, hle, hn₁⟩ :=
    sizes_of_fires hpos hnum rfl rfl hsmall hfires
  · have hmin : min left right = left := Nat.min_eq_left hlt.le
    have hiff := exact_iff_left (α := α) hmesh h htwo rfl rfl (by exact hleft) (by exact hle)
      (by exact hn₀) (by exact hint)
    rw [hiff, hmin]
    exact and_congr_right fun _ => ⟨fun hn _ => hn, fun hn => hn hlt⟩
  · have hmin : min left right = right := Nat.min_eq_right hlt.le
    have hiff := exact_iff_right (α := α) hmesh h htwo rfl rfl (by exact hleft) (by exact hle)
      (by exact hn₁)
    rw [hiff, hmin]
    exact ⟨fun hcond => ⟨hcond, fun hlt' => absurd hlt' (Nat.lt_asymm hlt)⟩, fun hcond => hcond.1⟩

end

/-- Nothing before four elements on two devices. -/
theorem concatTwo_exact_iff_empty : ∃ z, concatenate 0 [iota 0, iota 4] = some z ∧
    Exact (Computes [2] [[0]] 0 0 (iota 0) (iota 4)) z := by
  have hfires : Fires [2] [[0]] 0 0 4 := by decide
  have hrank : [[0]].length = [0].length := rfl
  exact (concatTwo_exact_iff (Nat.le_refl 2) (by decide) hrank rfl (.inl (by decide)) hfires).mpr
    ⟨.inr (by decide), fun _ => by decide⟩ _ _ rfl rfl

/-- Of `0, 1` before `0, 1, 2, 3, 4, 5` the second device has the 1, and it is lost. -/
theorem not_exact_two : Fires [2] [[0]] 0 2 6 ∧ ∃ z, concatenate 0 [iota 2, iota 6] = some z ∧
    ¬Exact (Computes [2] [[0]] 0 0 (iota 2) (iota 6)) z := by
  have h : ∀ size, ShardedAlong [2] [[0]] ([0].set 0 (coord [2] 0 * size)) 0 0 size :=
    shardedAlong_of_single Nat.two_pos (by decide) rfl rfl
  have hmesh : ∀ n ∈ [2], 0 < n := by decide
  have hx₀ : (iota 2).shape = [0].set 0 2 := rfl
  have hx₁ : (iota 6).shape = [0].set 0 6 := rfl
  have hsmall : concatLeft 2 6 (coord [2] 0) = true := by decide
  have hn₀ : (2 + padding 2 (coord [2] 0)) / coord [2] 0 = 1 := rfl
  have hn₁ : (6 + padding 6 (coord [2] 0)) / coord [2] 0 = 3 := rfl
  obtain ⟨z, hz, halong⟩ :=
    Along.concatenate_two Nat.one_pos (Along.of_shape hx₀) (Along.of_shape hx₁)
  obtain ⟨y₀, y₁, -, hline₁, hiff⟩ := exact_computes_iff hmesh h hsmall hn₀ hn₁ hx₀ hx₁
    halong.shape_eq (computesLines_left h (by decide) (by decide))
  refine ⟨by decide, z, hz, fun hexact => ?_⟩
  have hline := hiff.mp hexact 0 (by decide) [0] (by decide) (by decide) 1 (by decide) 1 (by decide)
    (by decide)
  have hwrong : y₁.get (lineAt [2] [[0]] [0] 0 0 [0] 0) = 0 :=
    get_lineAt hline₁ (by decide) (by decide)
  have hright : z.get (lineAt [2] [[0]] [0] 0 0 [0] 1) = 1 :=
    get_lineAt halong (by decide) (by decide)
  rw [leftLine, if_neg (by decide), hright] at hline
  exact absurd (hwrong.symm.trans hline) (by decide)

end EnzymeJax.ConcatTwoOperandsCommOptimize
