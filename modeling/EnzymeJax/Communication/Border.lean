import EnzymeJax.Communication.Halo

/-!
# Sharded results with borders

The lines of what wrap and extend compute on every device, and the elements of the final slice that
they have to be.
-/

namespace EnzymeJax

open Tensor List Option

variable {α : Type*}

/-- The sizes of a border of `n` elements on both sides of shards of extent `size`: every shard of the
result has extent `m`. -/
structure BorderSizes (numDevices size n m alpha : Nat) : Prop where
  even : numDevices % 2 = 0
  two_le : 2 ≤ numDevices
  alpha_eq : numDevices * alpha = 2 * n
  le_size : n ≤ size
  size_eq : m = size + alpha

namespace BorderSizes

variable {numDevices size n m alpha : Nat} (h : BorderSizes numDevices size n m alpha)

include h

theorem half : numDevices / 2 * alpha = n := by
  have htwice : numDevices / 2 * 2 = numDevices := by
    have heven := h.even
    omega
  have hdouble : numDevices / 2 * alpha * 2 = n * 2 := by
    rw [mul_right_comm, htwice, h.alpha_eq, mul_comm]
  omega

theorem alpha_le : alpha ≤ n := by
  have htwo : 1 ≤ numDevices / 2 := by
    have htwo := h.two_le
    omega
  have hle := Nat.mul_le_mul_right alpha htwo
  rw [h.half, one_mul] at hle
  exact hle

theorem tdiv_eq : (2 * n : Int).tdiv numDevices = alpha := by
  have hcast : (2 * n : Int) = (numDevices : Int) * (alpha : Int) := by exact_mod_cast h.alpha_eq.symm
  have hne : (numDevices : Int) ≠ 0 := by
    have htwo := h.two_le
    omega
  rw [hcast, Int.mul_tdiv_cancel_left _ hne]

end BorderSizes

/-! ### The configuration -/

theorem int32_eq {n : Nat} (h : n < 2 ^ 31) : int32 n = n := by
  rw [int32, Int.bmod_eq_of_le (by omega) (by omega)]

theorem intResult_eq {n r : Int} (h : intResult n = some r) : r = n ∧ n < 2 ^ 31 := by
  rw [intResult] at h
  split at h
  · rename_i hbounds
    exact ⟨(some.inj h).symm, hbounds.2⟩
  · cases h

theorem intResult_natCast {n : Nat} (h : n < 2 ^ 31) : intResult n = some (n : Int) :=
  if_pos (by omega)

theorem sidePadding_eq {a b : Nat} (ha : a < 2 ^ 31) (hb : b < 2 ^ 31) :
    (if (a : Int) < b then intResult (b - a) else some 0) = some ((max a b - a : Nat) : Int) := by
  split
  · have hsub : (b : Int) - a = (max a b - a : Nat) := by omega
    rw [hsub, intResult_natCast (by omega)]
  · have hsub : max a b - a = 0 := by omega
    rw [hsub]
    rfl

variable {lhs rhs : Nat} {config : WrapExtendConfiguration}

theorem configuration_eq {n numDevices : Nat} (hn : n < 2 ^ 31) (hlhs : lhs ≤ n) (hrhs : rhs ≤ n)
    (hpos : 0 < numDevices) (hdvd : numDevices ∣ n)
    (hconfig : getWrapExtendConfiguration n lhs rhs numDevices = some config)
    (hfires : config.Fires n numDevices) : ∃ b extra alpha : Nat, b = max lhs rhs + extra ∧
      config = ⟨(b - lhs : Nat), (b - rhs : Nat), b, (n + 2 * b : Nat)⟩ ∧ n + 2 * b < 2 ^ 31 ∧
      (numDevices ∣ 2 * max lhs rhs → extra = 0) ∧
      BorderSizes numDevices (n / numDevices) b (n / numDevices + alpha) alpha := by
  obtain ⟨hne, heven, hpadding, hfit⟩ := hfires
  have hmax : (if (lhs : Int) < rhs then (rhs : Int) else lhs) = (max lhs rhs : Nat) := by
    split <;> omega
  have htotal : (n : Int) + 2 * (max lhs rhs : Nat) = (n + 2 * max lhs rhs : Nat) := by omega
  simp only [getWrapExtendConfiguration, bind_eq_bind] at hconfig
  rw [int32_eq hn, int32_eq (hlhs.trans_lt hn), int32_eq (hrhs.trans_lt hn), hmax] at hconfig
  obtain ⟨leftPadding, hleft, hconfig⟩ := bind_eq_some_iff.mp hconfig
  obtain ⟨rightPadding, hright, hconfig⟩ := bind_eq_some_iff.mp hconfig
  obtain ⟨total, htotal', hconfig⟩ := bind_eq_some_iff.mp hconfig
  rw [sidePadding_eq (hlhs.trans_lt hn) (hrhs.trans_lt hn)] at hleft
  rw [sidePadding_eq (hrhs.trans_lt hn) (hlhs.trans_lt hn)] at hright
  cases hleft
  cases hright
  rw [htotal] at htotal'
  obtain ⟨htotalEq, hlt⟩ := intResult_eq htotal'
  subst htotalEq
  have hmod := Nat.div_add_mod (n + 2 * max lhs rhs) numDevices
  have hmodlt := Nat.mod_lt (n + 2 * max lhs rhs) hpos
  rw [← Int.ofNat_tmod, ← Int.ofNat_tdiv] at hconfig
  have hsizes : ∀ b, numDevices ∣ n + 2 * b → b ≤ n / numDevices →
      ∃ alpha, BorderSizes numDevices (n / numDevices) b (n / numDevices + alpha) alpha := by
    intro b hb hle
    obtain ⟨alpha, halpha⟩ := (Nat.dvd_add_right hdvd).mp hb
    exact ⟨alpha, heven, by omega, halpha.symm, hle, rfl⟩
  by_cases hzero : (n + 2 * max lhs rhs) % numDevices = 0
  · rw [if_neg (by rw [hzero]; exact fun h => h rfl)] at hconfig
    cases hconfig
    obtain ⟨alpha, halpha⟩ := hsizes (max lhs rhs) (Nat.dvd_of_mod_eq_zero hzero)
      (Int.ofNat_le.mp hfit)
    refine ⟨max lhs rhs, 0, alpha, rfl, ?_, by omega, fun _ => rfl, halpha⟩
    rw [max_comm rhs lhs]
  · have hmissing : (((n + 2 * max lhs rhs) / numDevices : Nat) + 1 : Int) * numDevices -
        (n + 2 * max lhs rhs : Nat) = (numDevices - (n + 2 * max lhs rhs) % numDevices : Nat) := by
      have hcast : (((n + 2 * max lhs rhs) / numDevices : Nat) + 1 : Int) * numDevices =
          (numDevices * ((n + 2 * max lhs rhs) / numDevices) + numDevices : Nat) := by
        push_cast
        ring
      rw [hcast]
      omega
    rw [if_pos (by exact_mod_cast hzero), hmissing] at hconfig
    split at hconfig
    · rename_i hhalf
      obtain ⟨extra, hextra⟩ : ∃ extra, numDevices - (n + 2 * max lhs rhs) % numDevices = 2 * extra :=
        ⟨_, (Nat.mul_div_cancel' (Nat.dvd_of_mod_eq_zero (Int.ofNat_inj.mp hhalf))).symm⟩
      have hextraDiv : ((2 * extra : Nat) : Int).tdiv 2 = (extra : Nat) := by
        change ((2 * extra / 2 : Nat) : Int) = _
        rw [Nat.mul_div_cancel_left _ two_pos]
      simp only [hextra, hextraDiv] at hconfig
      obtain ⟨left, hleft, hconfig⟩ := bind_eq_some_iff.mp hconfig
      obtain ⟨right, hright, hconfig⟩ := bind_eq_some_iff.mp hconfig
      obtain ⟨boundary, hboundary, hconfig⟩ := bind_eq_some_iff.mp hconfig
      obtain ⟨result, hres, hconfig⟩ := bind_eq_some_iff.mp hconfig
      obtain ⟨rfl, -⟩ := intResult_eq hleft
      obtain ⟨rfl, -⟩ := intResult_eq hright
      obtain ⟨rfl, -⟩ := intResult_eq hboundary
      obtain ⟨rfl, hresultLt⟩ := intResult_eq hres
      cases hconfig
      have hle : max lhs rhs + extra ≤ n / numDevices := by
        have hfit : ((max lhs rhs : Nat) : Int) + extra ≤ (n / numDevices : Nat) := hfit
        omega
      have hdvd' : numDevices ∣ n + 2 * (max lhs rhs + extra) := by
        refine ⟨(n + 2 * max lhs rhs) / numDevices + 1, ?_⟩
        rw [mul_add, mul_add, mul_one]
        omega
      obtain ⟨alpha, halpha⟩ := hsizes _ hdvd' hle
      refine ⟨_, extra, alpha, rfl, ?_, by omega, fun hdvd'' => ?_, halpha⟩
      · rw [WrapExtendConfiguration.mk.injEq]
        omega
      · exact absurd (Nat.mod_eq_zero_of_dvd ((Nat.dvd_add_right hdvd).mpr hdvd'')) hzero
    · cases hconfig
      exact absurd rfl hpadding.1

theorem paddedResultSize_lt {middleSize lhsSize rhsSize numDevices : Int}
    (h : getWrapExtendConfiguration middleSize lhsSize rhsSize numDevices = some config) :
    config.paddedResultSize < 2 ^ 31 := by
  simp only [getWrapExtendConfiguration, bind_eq_bind] at h
  obtain ⟨left, -, h⟩ := bind_eq_some_iff.mp h
  obtain ⟨right, -, h⟩ := bind_eq_some_iff.mp h
  generalize (if int32 lhsSize < int32 rhsSize then int32 rhsSize else int32 lhsSize) = boundary at h
  obtain ⟨total, htotal, h⟩ := bind_eq_some_iff.mp h
  obtain ⟨rfl, hlt⟩ := intResult_eq htotal
  split at h
  · split at h
    · obtain ⟨_, -, h⟩ := bind_eq_some_iff.mp h
      obtain ⟨_, -, h⟩ := bind_eq_some_iff.mp h
      obtain ⟨_, -, h⟩ := bind_eq_some_iff.mp h
      obtain ⟨_, hres, h⟩ := bind_eq_some_iff.mp h
      obtain ⟨rfl, hlt⟩ := intResult_eq hres
      cases h
      exact hlt
    · cases h
      decide
  · cases h
    exact hlt

/-! ### The flags of a device -/

section

variable {numDevices device : Nat}

section

variable (hnum : numDevices < 2 ^ 32)

include hnum

theorem leftSide_toNat (hdev : device < 2 ^ 32) :
    (leftSide numDevices device).toNat = device % numDevices := by
  rw [leftSide, partitionId, BitVec.toNat_umod, BitVec.toNat_ofNat, BitVec.toNat_ofNat,
    Nat.mod_eq_of_lt hnum, Nat.mod_eq_of_lt hdev]

theorem isLeftSide_iff (hdev : device < 2 ^ 32) :
    isLeftSide numDevices device = true ↔ device % numDevices = 0 := by
  rw [isLeftSide, beq_iff_eq, ← BitVec.toNat_inj, leftSide_toNat hnum hdev]
  rfl

theorem isRightSide_iff (hdev : device + 1 < 2 ^ 32) :
    isRightSide numDevices device = true ↔ (device + 1) % numDevices = 0 := by
  have hsucc : (partitionId device + 1).toNat = device + 1 := by
    rw [partitionId, BitVec.toNat_add, BitVec.toNat_ofNat, Nat.mod_eq_of_lt (by omega : device < 2 ^ 32)]
    exact Nat.mod_eq_of_lt hdev
  rw [isRightSide, beq_iff_eq, ← BitVec.toNat_inj, BitVec.toNat_umod, hsucc, BitVec.toNat_ofNat, Nat.mod_eq_of_lt hnum]
  rfl

theorem isLeftBlock_iff (hdev : device < 2 ^ 32) :
    isLeftBlock numDevices device = true ↔ device % numDevices < numDevices / 2 := by
  rw [isLeftBlock, BitVec.ult_iff_lt, BitVec.lt_def, leftSide_toNat hnum hdev,
    BitVec.toNat_ofNat, Nat.mod_eq_of_lt (by omega : numDevices / 2 < 2 ^ 32)]

end

end

/-! ### The lines of the local results -/

section

variable [Zero α] {mesh : Mesh} {sharding : Sharding} {dim axis size n m alpha : Nat} {x : Tensor α}

/-- What a device has, given the lines `f` of the shards and `edge` of the ends. -/
def borderLine (mesh : Mesh) (axis size n m : Nat) (f edge : List Nat → Nat → Nat → α)
    (idx : List Nat) (k device : Nat) : α :=
  let numDevices := coord mesh axis
  let cperm := innerComm mesh axis numDevices size n f
  if numDevices ≠ 2 ∧ isLeftSide numDevices device = false ∧ isRightSide numDevices device = false then
    if isLeftBlock numDevices device then
      appendLine n cperm f idx (windowStart numDevices size n m device + k) device
    else appendLine size f cperm idx (windowStart numDevices size n m device + k) device
  else edge idx k device

theorem borderBody_eq (h : ShardedAlong mesh sharding x.shape dim axis size)
    (hsizes : BorderSizes (coord mesh axis) size n m alpha)
    {edges : Tensor (Nat → α) → Option (Tensor (Nat → α))} {edge : List Nat → Nat → Nat → α}
    (hedges : ∃ y g, edges (shard mesh sharding x) = some y ∧ Along dim (localShape mesh sharding x.shape) m g y ∧
      ∀ idx k, ∀ device < mesh.prod, g idx k device = edge idx k device) :
    ∃ y f, borderBody mesh axis dim (coord mesh axis) n m edges (shard mesh sharding x) = some y ∧
      Along dim (localShape mesh sharding x.shape) m f y ∧
      ∀ idx k, ∀ device < mesh.prod, f idx k device =
        borderLine mesh axis size n m (shardLine mesh sharding dim axis size x) edge idx k device := by
  obtain ⟨outer, g, houter, houterAlong, hg⟩ := hedges
  by_cases htwo : coord mesh axis = 2
  · refine ⟨outer, g, ?_, houterAlong, fun idx k device hdev => ?_⟩
    · rw [borderBody, if_neg (by simpa using htwo), houter]
    · rw [hg idx k device hdev, borderLine]
      simp [htwo]
  · have hle : m ≤ size + n := by
      rw [hsizes.size_eq]
      exact Nat.add_le_add_left hsizes.alpha_le size
    obtain ⟨inner, f, hinner, hinnerAlong, hf⟩ := nonEdges_eq h hsizes.le_size hle (coord mesh axis)
    obtain ⟨y, hy, halong⟩ := Along.ifDevice (fun device =>
      !isLeftSide (coord mesh axis) device && !isRightSide (coord mesh axis) device) hinnerAlong
        houterAlong
    refine ⟨y, _, ?_, halong, fun idx k device hdev => ?_⟩
    · rw [borderBody, if_pos htwo]
      simp only [hinner, houter, bind_eq_bind, bind_some, hy]
    · rw [borderLine, hg idx k device hdev, hf idx k device hdev]
      by_cases hend : isLeftSide (coord mesh axis) device = false ∧ isRightSide (coord mesh axis) device = false
      · simp only [ne_eq, htwo, not_false_eq_true, hend.1, hend.2, and_self, Bool.not_false, Bool.and_self, if_true]
      · have hnot : ¬(coord mesh axis ≠ 2 ∧ isLeftSide (coord mesh axis) device = false ∧
            isRightSide (coord mesh axis) device = false) := fun h => hend h.2
        have hflag : (!isLeftSide (coord mesh axis) device && !isRightSide (coord mesh axis) device) =
            false := by
          simpa using hend
        rw [if_neg hnot]
        simp only [hflag, Bool.false_eq_true, if_false]

variable {edge : (List Nat → Nat → Nat → α) → List Nat → Nat → Nat → α} {left device k : Nat}
  {edges : Int → Nat → Tensor (Nat → α) → Option (Tensor (Nat → α))} {z : Tensor α} {idx : List Nat}

/-- Wrap and extend are exact where every device has the right elements outside of the padding. -/
theorem exact_borders_iff (h : ShardedDim mesh sharding x.shape dim axis)
    (hsizes : BorderSizes (coord mesh axis) (coord x.shape dim / coord mesh axis) n m alpha) (right : Int)
    (hfit : left + (lhs + coord x.shape dim + rhs) ≤ coord x.shape dim + 2 * n)
    (hedges : ∀ y : Tensor α, ShardedAlong mesh sharding y.shape dim axis (coord x.shape dim / coord mesh axis) →
      ∃ z g, edges n m (shard mesh sharding y) = some z ∧ Along dim (localShape mesh sharding y.shape) m g z ∧
        ∀ idx k, ∀ device < mesh.prod, g idx k device =
          edge (shardLine mesh sharding dim axis (coord x.shape dim / coord mesh axis) y) idx k
            device) (hz : z.shape = x.shape.set dim (lhs + coord x.shape dim + rhs)) :
    ∃ y : Tensor α, ShardedAlong mesh sharding y.shape dim axis
        (coord x.shape dim / coord mesh axis) ∧
      y.shape = paddedShape mesh sharding dim x.shape ∧
      (∀ idx ∈ indices x.shape, y.get idx = x.get idx) ∧
      (Exact (ComputesBorders mesh sharding dim axis lhs rhs
          ⟨left, right, n, (coord x.shape dim + 2 * n : Nat)⟩ edges x) z ↔
        ∀ device < mesh.prod, ∀ idx ∈ indices ((localShape mesh sharding y.shape).set dim 1),
          lineAt mesh sharding y.shape dim device idx 0 ∈ indices (x.shape.set dim 1) →
            ∀ k < m, ∀ j < lhs + coord x.shape dim + rhs, devicePos mesh axis device * m + k = left + j →
                borderLine mesh axis (coord x.shape dim / coord mesh axis) n m
                    (shardLine mesh sharding dim axis (coord x.shape dim / coord mesh axis) y)
                    (edge (shardLine mesh sharding dim axis (coord x.shape dim / coord mesh axis) y)) idx k device =
                  z.get (lineAt mesh sharding y.shape dim device idx j)) := by
  have hd := h.dim_lt
  obtain ⟨y, hy, hyShape, hyGet⟩ := padOthers_eq mesh dim h.rank
  have hsharded := hyShape ▸ h.padded
  have hnum := h.numShards_eq
  have htotal : coord mesh axis * m = coord x.shape dim + 2 * n := by
    rw [hsizes.size_eq, mul_add, hsizes.alpha_eq, h.extent_eq]
  have hlocal : (coord x.shape dim + 2 * n) / coord mesh axis = m := by
    rw [← htotal, Nat.mul_div_cancel_left _ hsharded.axis_pos]
  obtain ⟨locals, f, hbody, hlocals, hlines⟩ := borderBody_eq hsharded hsizes (hedges y hsharded)
  have hresized := hsharded.resize m
  have hset : localShape mesh sharding (y.shape.set dim (coord mesh axis * m)) =
      (localShape mesh sharding y.shape).set dim m := by
    rw [localShape_set h.axis_eq, Nat.mul_div_cancel_left _ hsharded.axis_pos]
  have hassembled : ∀ y', ComputesBorders mesh sharding dim axis lhs rhs
        ⟨left, right, n, (coord x.shape dim + 2 * n : Nat)⟩ edges x y' ↔
      Assembled mesh sharding dim left (x.shape.set dim (lhs + coord x.shape dim + rhs))
        (y.shape.set dim (coord mesh axis * m)) locals y' := by
    intro y'
    simp only [ComputesBorders, hnum, Int.toNat_natCast, hlocal, htotal]
    constructor
    · intro ⟨input, result, hinput, _, hmanual, hshape, hremove⟩
      cases hy.symm.trans hinput
      exact ⟨result, (manualComputation_iff hsharded.divides hbody).mp hmanual, hshape, hremove⟩
    · intro ⟨result, hassembles, hshape, hremove⟩
      exact ⟨y, result, hy, Int.natCast_nonneg _,
        (manualComputation_iff hsharded.divides hbody).mpr hassembles, hshape, hremove⟩
  have hcoord : coord (x.shape.set dim (lhs + coord x.shape dim + rhs)) dim =
      lhs + coord x.shape dim + rhs := coord_set_self hd _
  have hle : Forall₂ (· ≤ ·) ((x.shape.set dim (lhs + coord x.shape dim + rhs)).set dim
      (left + coord (x.shape.set dim (lhs + coord x.shape dim + rhs)) dim))
      (y.shape.set dim (coord mesh axis * m)) := by
    rw [set_set, hcoord, htotal, hyShape]
    exact forall₂_le_set (le_paddedShape h.rank) hfit
  refine ⟨y, hsharded, hyShape, hyGet, ?_⟩
  rw [exact_congr hassembled, exact_iff_lines hresized (prod_pos h.mesh_pos) hset hlocals hz hle, hcoord]
  simp only [lineAt_set, set_set]
  refine forall_congr' fun device => forall_congr' fun hdev => forall_congr' fun idx => ?_
  refine forall_congr' fun hidx => forall_congr' fun hvisible => forall_congr' fun k => ?_
  rw [hlines idx k device hdev]

theorem not_exact_of_le (h : ShardedDim mesh sharding x.shape dim axis) (hlarge : 2 ^ 31 ≤ coord x.shape dim)
    (hconfig : config.paddedResultSize < 2 ^ 31) :
    ¬Exact (ComputesBorders mesh sharding dim axis lhs rhs config edges x) z := by
  intro ⟨⟨y, input, result, hinput, hpos, hmanual, hshape, hremove⟩, _⟩
  have hd := h.dim_lt
  obtain ⟨input', hinput', hinputShape, -⟩ := padOthers_eq mesh dim h.rank
  cases hinput.symm.trans hinput'
  have hle := le_of_removePadding (by rwa [length_set]) hremove
  rw [hshape, coord_set_self hd, coord_set_self] at hle
  · omega
  · rwa [hinputShape, paddedShape_length h.rank]

variable {shape : List Nat}

/-- An operand that is zero but at one position along the dimension tells a wrong element. -/
theorem exists_not_exact [Nontrivial α] (h : ShardedDim mesh sharding shape dim axis)
    (hsizes : BorderSizes (coord mesh axis) (coord shape dim / coord mesh axis) n m alpha) {right : Int}
    (hfit : left + (lhs + coord shape dim + rhs) ≤ coord shape dim + 2 * n)
    (hedges : ∀ y : Tensor α, ShardedAlong mesh sharding y.shape dim axis (coord shape dim / coord mesh axis) →
      ∃ z g, edges n m (shard mesh sharding y) = some z ∧ Along dim (localShape mesh sharding y.shape) m g z ∧
        ∀ idx k, ∀ device < mesh.prod, g idx k device =
          edge (shardLine mesh sharding dim axis (coord shape dim / coord mesh axis) y) idx k device)
    {lower : Tensor α → Option (Tensor α)}
    (hlower : ∀ x z, x.shape = shape → lower x = some z → z.shape = shape.set dim (lhs + coord shape dim + rhs))
    {i j q : Nat} (hdev : device < mesh.prod)
    (hidx : idx ∈ indices ((localShape mesh sharding (paddedShape mesh sharding dim shape)).set dim 1))
    (hvisible : lineAt mesh sharding (paddedShape mesh sharding dim shape) dim device idx 0 ∈ indices (shape.set dim 1))
    (hk : k < m) (hq : q < lhs + coord shape dim + rhs) (hposition : devicePos mesh axis device * m + k = left + q)
    (hj : j < coord shape dim) (hne : j ≠ i) (hright : ∀ x z, x.shape = shape → lower x = some z →
      z.get (lineAt mesh sharding (paddedShape mesh sharding dim shape) dim device idx q) =
        x.get (lineAt mesh sharding (paddedShape mesh sharding dim shape) dim device idx i))
    (hwrong : ∀ y : Tensor α, y.shape = paddedShape mesh sharding dim shape →
      borderLine mesh axis (coord shape dim / coord mesh axis) n m
          (shardLine mesh sharding dim axis (coord shape dim / coord mesh axis) y)
          (edge (shardLine mesh sharding dim axis (coord shape dim / coord mesh axis) y)) idx k
            device =
        y.get (lineAt mesh sharding (paddedShape mesh sharding dim shape) dim device idx j)) :
    ∃ x : Tensor α, x.shape = shape ∧ ∀ z, lower x = some z → ¬Exact (ComputesBorders mesh sharding dim axis lhs rhs
        ⟨left, right, n, (coord shape dim + 2 * n : Nat)⟩ edges x) z := by
  classical
  obtain ⟨a, ha⟩ := exists_ne (0 : α)
  let x : Tensor α := ⟨shape, fun idx => if coord idx dim = i then a else 0⟩
  refine ⟨x, rfl, fun z hz hexact => ha ?_⟩
  have hlen : idx.length = (paddedShape mesh sharding dim shape).length := by
    rw [length_of_mem_indices hidx, length_set, h.padded.localShape_length]
  have hcoord : ∀ j, coord (lineAt mesh sharding (paddedShape mesh sharding dim shape) dim device idx j)
      dim = j := fun j => h.padded.coord_lineAt hlen
  obtain ⟨y, hsharded, hyShape, hyGet, hiff⟩ :=
    exact_borders_iff (x := x) h hsizes right hfit hedges (hlower x z rfl hz)
  rw [hyShape] at hiff
  have hline := hiff.mp hexact device hdev idx hidx hvisible k hk q hq hposition
  have hmem : lineAt mesh sharding (paddedShape mesh sharding dim shape) dim device idx j ∈
      indices shape := by
    have hset := set_mem_indices hvisible hj
    rwa [set_lineAt, set_coord_self h.dim_lt] at hset
  rw [hwrong y hyShape, hyGet _ hmem, hright x z rfl hz] at hline
  simp only [x, hcoord, if_true, if_neg hne] at hline
  exact hline.symm

/-! ### The middle of the axis -/

theorem windowStart_middle {numDevices : Nat} (hsizes : BorderSizes numDevices size n m alpha)
    (hnum : numDevices < 2 ^ 32) (hdev : device < 2 ^ 32) (hn : n < 2 ^ 32) (hpos : 0 < n)
    (hmod : device % numDevices = numDevices / 2) :
    isLeftBlock numDevices device = false ∧ windowStart numDevices size n m device = n - alpha := by
  have hblock : isLeftBlock numDevices device = false := by
    rw [← Bool.not_eq_true, isLeftBlock_iff hnum hdev, hmod]
    exact lt_irrefl _
  have halpha : 0 < alpha := Nat.pos_of_mul_pos_left (hsizes.half ▸ hpos : 0 < numDevices / 2 * alpha)
  have hle := hsizes.alpha_le
  have hshift : (leftSide numDevices device * BitVec.ofInt 32 ((2 * n : Int).tdiv numDevices)).toNat =
      n := by
    rw [hsizes.tdiv_eq, BitVec.ofInt_natCast, BitVec.toNat_mul, leftSide_toNat hnum hdev, hmod,
      BitVec.toNat_ofNat, Nat.mul_mod_mod, hsizes.half, Nat.mod_eq_of_lt hn]
  have hconst : (BitVec.ofInt 32 (((size + n : Nat) : Int) - m)).toNat = n - alpha := by
    have hcast : ((size + n : Nat) : Int) - m = (n - alpha : Nat) := by
      rw [hsizes.size_eq]
      omega
    rw [hcast, BitVec.ofInt_natCast, BitVec.toNat_ofNat, Nat.mod_eq_of_lt (by omega)]
  refine ⟨hblock, ?_⟩
  rw [windowStart]
  simp only [hblock, Bool.false_eq_true, if_false]
  rw [BitVec.toNat_sub, hshift, hconst, hsizes.size_eq, clampStart]
  have hmodulus : (2 ^ 32 - n + (n - alpha)) % 2 ^ 32 = 2 ^ 32 - alpha := by
    rw [Nat.mod_eq_of_lt (by omega)]
    omega
  rw [hmodulus]
  omega

omit [Zero α] in
theorem exists_visible (h : ShardedDim mesh sharding shape dim axis) (hpos : ∀ n ∈ shape, 0 < n)
    {c : Nat} (hc : c < coord mesh axis) :
    c * axisStride mesh axis < mesh.prod ∧ devicePos mesh axis (c * axisStride mesh axis) = c ∧ ∃ idx ∈ indices
          ((localShape mesh sharding (paddedShape mesh sharding dim shape)).set dim 1),
        lineAt mesh sharding (paddedShape mesh sharding dim shape) dim
          (c * axisStride mesh axis) idx 0 ∈ indices (shape.set dim 1) := by
  obtain ⟨hdev, hdevicePos, idx, hidx, hline⟩ :=
    h.padded.exists_line (paddedShape_pos h.rank hpos) (prod_pos h.mesh_pos) hc
  refine ⟨hdev, hdevicePos, idx, hidx, ?_⟩
  have hset : ∀ n ∈ shape.set dim 1, 0 < n := fun n hn =>
    (mem_or_eq_of_mem_set hn).elim (hpos n) fun heq => heq ▸ one_pos
  have hzeros := zeros_mem_indices hset
  rw [length_set] at hzeros
  rw [hline, paddedShape_length h.rank]
  exact set_mem_indices hzeros one_pos

theorem exists_middle (h : ShardedDim mesh sharding shape dim axis)
    (hsizes : BorderSizes (coord mesh axis) (coord shape dim / coord mesh axis) n m alpha) (hpos : ∀ n ∈ shape, 0 < n)
    (hdevices : mesh.prod ≤ 2 ^ 32) (hsmall : coord shape dim < 2 ^ 32) (hn : 0 < n) (hfour : coord mesh axis ≠ 2)
    (edge : (List Nat → Nat → Nat → α) → List Nat → Nat → Nat → α)
    (hedge : ∀ f idx k device, isLeftSide (coord mesh axis) device = true → n ≤ k →
      edge f idx k device = f idx (k - n) device) :
    ∃ device < mesh.prod, ∃ idx ∈ indices
        ((localShape mesh sharding (paddedShape mesh sharding dim shape)).set dim 1),
      lineAt mesh sharding (paddedShape mesh sharding dim shape) dim device idx 0 ∈
        indices (shape.set dim 1) ∧
      ∃ k < m, ∃ i < coord shape dim, ∃ j < coord shape dim, j ≠ i ∧ (axisStride mesh axis % 2 = 1 → i < j) ∧
        devicePos mesh axis device * m + k = n + i ∧
        ∀ y : Tensor α, y.shape = paddedShape mesh sharding dim shape →
          borderLine mesh axis (coord shape dim / coord mesh axis) n m
              (shardLine mesh sharding dim axis (coord shape dim / coord mesh axis) y)
              (edge (shardLine mesh sharding dim axis (coord shape dim / coord mesh axis) y)) idx k
                device =
            y.get (lineAt mesh sharding (paddedShape mesh sharding dim shape) dim device idx j) := by
  have hextent := h.extent_eq
  have htwo := hsizes.two_le
  have heven := hsizes.even
  have hle := hsizes.le_size
  have hhalf := hsizes.half
  have hnum : coord mesh axis < 2 ^ 32 := by
    have hmul := Nat.mul_le_mul_left (coord mesh axis) (hn.trans_le hle)
    omega
  obtain ⟨hdev, hdevicePos, idx, hidx, hvisible⟩ :=
    exists_visible h hpos (by omega : coord mesh axis / 2 < coord mesh axis)
  have hnext : coord mesh axis / 2 * axisStride mesh axis + 1 < 2 ^ 32 := by
    obtain ⟨hlast, -⟩ :=
      exists_visible h hpos (by omega : coord mesh axis / 2 + 1 < coord mesh axis)
    rw [add_mul, one_mul] at hlast
    have hstride : 0 < axisStride mesh axis :=
      prod_pos fun n hn => h.mesh_pos n (mem_of_mem_drop hn)
    omega
  -- Position `p` of the axis has the shard from `p * size` on, and `p * alpha` is the border.
  have hmiddle : coord mesh axis / 2 * m = coord mesh axis / 2 * (coord shape dim / coord mesh axis) + n := by
    rw [hsizes.size_eq, mul_add, hhalf]
  have hroom : (coord mesh axis / 2 + 2) * (coord shape dim / coord mesh axis) ≤ coord shape dim := by
    have hmul := Nat.mul_le_mul_right (coord shape dim / coord mesh axis)
      (by omega : coord mesh axis / 2 + 2 ≤ coord mesh axis)
    rwa [hextent] at hmul
  rw [add_mul] at hroom
  have halpha : 0 < alpha := Nat.pos_of_mul_pos_left (hhalf ▸ hn : 0 < coord mesh axis / 2 * alpha)
  have halphaLt : alpha < n := by
    have hmul := Nat.mul_le_mul_right alpha (by omega : 2 ≤ coord mesh axis / 2)
    omega
  have hsize := hsizes.size_eq
  have hshard : ∀ (y : Tensor α) (k : Nat), y.shape = paddedShape mesh sharding dim shape →
      shardLine mesh sharding dim axis (coord shape dim / coord mesh axis) y idx k
          (coord mesh axis / 2 * axisStride mesh axis) =
        y.get (lineAt mesh sharding (paddedShape mesh sharding dim shape) dim
          (coord mesh axis / 2 * axisStride mesh axis) idx
          (coord mesh axis / 2 * (coord shape dim / coord mesh axis) + k)) := by
    intro y k hy
    rw [shardLine, hdevicePos, hy]
  refine ⟨_, hdev, idx, hidx, hvisible, ?_⟩
  by_cases hparity : axisStride mesh axis % 2 = 0
  · have hmod : coord mesh axis / 2 * axisStride mesh axis % coord mesh axis = 0 := by
      obtain ⟨t, ht⟩ := Nat.dvd_of_mod_eq_zero hparity
      obtain ⟨p, hp⟩ := Nat.dvd_of_mod_eq_zero heven
      rw [ht, hp, Nat.mul_div_cancel_left _ two_pos, ← mul_assoc, mul_comm p 2]
      exact Nat.mul_mod_right _ _
    have hleft := (isLeftSide_iff hnum (by omega)).mpr hmod
    refine ⟨n, by omega, coord mesh axis / 2 * (coord shape dim / coord mesh axis) + n, by omega,
      coord mesh axis / 2 * (coord shape dim / coord mesh axis), by omega, by omega, by omega, ?_, ?_⟩
    · rw [hdevicePos]
      omega
    · intro y hy
      rw [borderLine, if_neg fun hinner => by simp [hleft] at hinner,
        hedge _ _ _ _ hleft (le_refl n), Nat.sub_self, hshard y 0 hy, add_zero]
  · have hmod : coord mesh axis / 2 * axisStride mesh axis % coord mesh axis = coord mesh axis / 2 := by
      obtain ⟨p, hp⟩ := Nat.dvd_of_mod_eq_zero heven
      obtain ⟨t, ht⟩ : ∃ t, axisStride mesh axis = 2 * t + 1 := ⟨axisStride mesh axis / 2, by omega⟩
      rw [ht, hp, Nat.mul_div_cancel_left _ two_pos, mul_add, mul_one, ← mul_assoc,
        mul_comm p 2, Nat.mul_add_mod, Nat.mod_eq_of_lt (by omega)]
    have hleft : isLeftSide (coord mesh axis) (coord mesh axis / 2 * axisStride mesh axis) = false := by
      rw [← Bool.not_eq_true, isLeftSide_iff hnum (by omega), hmod]
      omega
    have hright : isRightSide (coord mesh axis) (coord mesh axis / 2 * axisStride mesh axis) =
        false := by
      rw [← Bool.not_eq_true, isRightSide_iff hnum hnext, Nat.add_mod, hmod,
        Nat.mod_eq_of_lt (by omega : 1 < coord mesh axis), Nat.mod_eq_of_lt (by omega)]
      omega
    obtain ⟨hblock, hstart⟩ :=
      windowStart_middle hsizes hnum (by omega) (by omega) hn hmod
    refine ⟨0, by omega, coord mesh axis / 2 * (coord shape dim / coord mesh axis), by omega,
      coord mesh axis / 2 * (coord shape dim / coord mesh axis) + (n - alpha), by omega, by omega,
      by omega, ?_, ?_⟩
    · rw [hdevicePos]
      omega
    · intro y hy
      rw [borderLine, if_pos ⟨hfour, hleft, hright⟩, if_neg (by simp [hblock]), hstart, appendLine,
        if_pos (by omega), hshard y _ hy, add_zero]

theorem borderLine_two (htwo : coord mesh axis = 2) {f edge : List Nat → Nat → Nat → α} :
    borderLine mesh axis size n m f edge idx k device = edge idx k device :=
  if_neg fun hinner => hinner.1 htwo

theorem borderLine_zero (hsizes : BorderSizes (coord mesh axis) size 0 m alpha)
    {f edge : List Nat → Nat → Nat → α} (hk : k < m) (hedge : edge idx k device = f idx k device) :
    borderLine mesh axis size 0 m f edge idx k device = f idx k device := by
  have halpha : alpha = 0 := Nat.le_zero.mp hsizes.alpha_le
  have hm : m = size := by rw [hsizes.size_eq, halpha, add_zero]
  have hstart : windowStart (coord mesh axis) size 0 m device = 0 := by
    rw [windowStart, hm]
    split <;> rw [clampStart] <;> omega
  rw [borderLine]
  split
  · rw [hstart]
    split
    · rw [appendLine, if_neg (Nat.not_lt_zero _), Nat.sub_zero, Nat.zero_add]
    · rw [appendLine, zero_add, if_pos (hm ▸ hk)]
  · exact hedge

end

end EnzymeJax
