import EnzymeJax.Communication.Border

/-!
# Extending a sharded dimension

`ExtendCommOptimize` takes the borders from the ends themselves. Both get the length of the longer one, so the
result is right for borders of one length, on two devices.
-/

namespace EnzymeJax.ExtendCommOptimize

open Tensor

variable {α : Type*}

/-- The configuration is computed with the borders the other way around. -/
def Fires (mesh : Mesh) (sharding : Sharding) (shape : List Nat) (dim lhs rhs : Nat) : Prop :=
  let n := coord shape dim
  let numDevices := numShards mesh (sharding.getD dim [])
  ∃ config ∈ getWrapExtendConfiguration n rhs lhs numDevices, config.Fires n numDevices

instance (mesh : Mesh) (sharding : Sharding) (shape : List Nat) (dim lhs rhs : Nat) :
    Decidable (Fires mesh sharding shape dim lhs rhs) :=
  inferInstanceAs (Decidable (∃ config ∈ _, _))

/-- What the rewritten program makes of an operand. -/
def Computes [Zero α] (mesh : Mesh) (sharding : Sharding) (dim axis lhs rhs : Nat)
    (x y : Tensor α) : Prop :=
  let numDevices := numShards mesh (sharding.getD dim [])
  ∃ config ∈ getWrapExtendConfiguration (coord x.shape dim) rhs lhs numDevices,
    ComputesBorders mesh sharding dim axis lhs rhs config
      (extendCommPatternForEdges dim numDevices) x y

def edgeLine (numDevices size n m alpha : Nat) (f : List Nat → Nat → Nat → α) (idx : List Nat)
    (k device : Nat) : α :=
  if isLeftSide numDevices device then appendLine n f f idx k device
  else appendLine (m - n) (fun idx k => f idx (n - alpha + k)) (fun idx k => f idx (size - n + k)) idx
    k device

section

variable {mesh : Mesh} {sharding : Sharding} {shape : List Nat} {dim axis size n m alpha lhs rhs : Nat}

variable {x z y : Tensor α} {numDevices k device j : Nat} {idx : List Nat}

theorem exists_edgeLine (hsizes : BorderSizes (coord mesh axis) size n m alpha)
    (h : ShardedAlong mesh sharding x.shape dim axis size) :
    ∃ y g, extendCommPatternForEdges dim (coord mesh axis) n m (shard mesh sharding x) = some y ∧
      Along dim (localShape mesh sharding x.shape) m g y ∧
      ∀ idx k, ∀ device < mesh.prod, g idx k device =
        edgeLine (coord mesh axis) size n m alpha (shardLine mesh sharding dim axis size x) idx k
          device := by
  obtain ⟨y, g, hy, halong, hg⟩ :=
    extendEdges_eq h hsizes.tdiv_eq hsizes.alpha_le hsizes.le_size hsizes.size_eq
  exact ⟨y, g, hy, halong, fun idx k device _ => hg idx k device⟩

theorem edgeLine_zero {f : List Nat → Nat → Nat → α} (hk : k < m) :
    edgeLine numDevices size 0 m alpha f idx k device = f idx k device := by
  rw [edgeLine]
  split
  · rw [appendLine, if_neg (Nat.not_lt_zero k), Nat.sub_zero]
  · rw [appendLine, Nat.sub_zero, if_pos hk, Nat.zero_sub, zero_add]

theorem lowerExtend_get {padded : List Nat} (h : ShardedDim mesh sharding x.shape dim axis)
    (hlhs : lhs ≤ coord x.shape dim) (hrhs : rhs ≤ coord x.shape dim) (hz : lowerExtend dim lhs rhs x = some z)
    (hvisible : lineAt mesh sharding padded dim device idx 0 ∈ indices (x.shape.set dim 1))
    (hj : j < lhs + coord x.shape dim + rhs) : z.get (lineAt mesh sharding padded dim device idx j) =
      x.get (lineAt mesh sharding padded dim device idx (if j < lhs then j
          else if j - lhs < coord x.shape dim then j - lhs
          else coord x.shape dim - rhs + (j - lhs - coord x.shape dim))) := by
  obtain ⟨z', hz', halong⟩ := along_lowerExtend h.dim_lt (Along.self h.dim_lt) hlhs hrhs
  cases hz.symm.trans hz'
  rw [get_lineAt halong hvisible (Nat.add_assoc _ _ _ ▸ hj), appendLine, appendLine]
  split
  · rw [set_lineAt]
  · split
    · rw [set_lineAt]
    · rw [set_lineAt]

/-! ### Two devices and borders of one length -/

theorem line_of_two (h : ShardedDim [2] sharding x.shape dim 0)
    (hsizes : BorderSizes 2 (coord x.shape dim / 2) n m alpha) (hn : n ≤ coord x.shape dim)
    (hyGet : ∀ idx ∈ indices x.shape, y.get idx = x.get idx) (hz : lowerExtend dim n n x = some z) (hdev : device < 2)
    (hvisible : lineAt [2] sharding y.shape dim device idx 0 ∈ indices (x.shape.set dim 1)) (hk : k < m)
    (hj : j < n + coord x.shape dim + n) (hposition : devicePos [2] 0 device * m + k = j) :
    edgeLine 2 (coord x.shape dim / 2) n m alpha
        (shardLine [2] sharding dim 0 (coord x.shape dim / 2) y) idx k device =
      z.get (lineAt [2] sharding y.shape dim device idx j) := by
  have hextent : 2 * (coord x.shape dim / 2) = coord x.shape dim := h.extent_eq
  have hhalf : 1 * alpha = n := hsizes.half
  have hm := hsizes.size_eq
  have hle := hsizes.le_size
  have hget : ∀ i < coord x.shape dim, y.get (lineAt [2] sharding y.shape dim device idx i) =
      x.get (lineAt [2] sharding y.shape dim device idx i) := by
    intro i hi
    have hmem := set_mem_indices hvisible hi
    rw [set_lineAt, set_coord_self h.dim_lt] at hmem
    exact hyGet _ hmem
  generalize coord x.shape dim / 2 = size at *
  rw [lowerExtend_get h hn hn hz hvisible hj, edgeLine]
  obtain rfl | rfl : device = 0 ∨ device = 1 := by omega
  · have hpos : devicePos [2] 0 0 = 0 := rfl
    rw [hpos, zero_mul, zero_add] at hposition
    subst hposition
    rw [if_pos (by decide), appendLine]
    by_cases hborder : k < n
    · rw [if_pos hborder, if_pos hborder, shardLine, hpos, zero_mul, zero_add, hget k (by omega)]
    · rw [if_neg hborder, if_neg hborder, if_pos (by omega), shardLine, hpos, zero_mul, zero_add, hget _ (by omega)]
  · have hpos : devicePos [2] 0 1 = 1 := rfl
    rw [hpos, one_mul] at hposition
    rw [if_neg (by decide), appendLine]
    by_cases hborder : k < m - n
    · rw [if_pos hborder, shardLine, hpos, one_mul, if_neg (by omega), if_pos (by omega), hget _ (by omega)]
      congr 2
      omega
    · rw [if_neg hborder, shardLine, hpos, one_mul, if_neg (by omega), if_neg (by omega), hget _ (by omega)]
      congr 2
      omega

/-! ### Every extend -/

variable [Zero α]

theorem computes_iff (h : ShardedDim mesh sharding shape dim axis) {config : WrapExtendConfiguration}
    (hconfig : getWrapExtendConfiguration (coord shape dim) rhs lhs (coord mesh axis) = some config)
    (hx : x.shape = shape) :
    Computes mesh sharding dim axis lhs rhs x y ↔ ComputesBorders mesh sharding dim axis lhs rhs config
      (extendCommPatternForEdges dim (coord mesh axis)) x y := by
  rw [Computes, hx, h.numShards_eq, hconfig]
  simp

/-- The element of the operand that is at position `q` of the extended one. -/
def extendSource (n lhs rhs q : Nat) : Nat :=
  if q < lhs then q else if q - lhs < n then q - lhs else n - rhs + (q - lhs - n)

theorem exists_wrong (h : ShardedDim [numDevices] sharding shape dim 0) (hsmall : coord shape dim < 2 ^ 31)
    (hlhs : lhs ≤ n) (hrhs : rhs ≤ n) (hsizes : BorderSizes numDevices (coord shape dim / numDevices) n m alpha)
    (hpos : ∀ n ∈ shape, 0 < n) (hn : 0 < n) (hwrong : numDevices = 2 → lhs ≠ rhs ∧ n = max lhs rhs) :
    ∃ device < [numDevices].prod, ∃ idx ∈ indices ((localShape [numDevices] sharding
        (paddedShape [numDevices] sharding dim shape)).set dim 1),
      lineAt [numDevices] sharding (paddedShape [numDevices] sharding dim shape) dim device idx 0 ∈
        indices (shape.set dim 1) ∧
      ∃ k < m, ∃ q < lhs + coord shape dim + rhs, ∃ j < coord shape dim, j ≠ extendSource (coord shape dim) lhs rhs q ∧
        devicePos [numDevices] 0 device * m + k = n - rhs + q ∧
        ∀ y : Tensor α, y.shape = paddedShape [numDevices] sharding dim shape →
          borderLine [numDevices] 0 (coord shape dim / numDevices) n m
              (shardLine [numDevices] sharding dim 0 (coord shape dim / numDevices) y)
              (edgeLine numDevices (coord shape dim / numDevices) n m alpha
                (shardLine [numDevices] sharding dim 0 (coord shape dim / numDevices) y)) idx k device =
            y.get (lineAt [numDevices] sharding (paddedShape [numDevices] sharding dim shape) dim device idx j) := by
  have hextent : numDevices * (coord shape dim / numDevices) = coord shape dim := h.extent_eq
  have hle := hsizes.le_size
  have hm := hsizes.size_eq
  have hhalf := hsizes.half
  have htwoLe := hsizes.two_le
  have hdouble := Nat.mul_le_mul_right (coord shape dim / numDevices) htwoLe
  have hnum : numDevices < 2 ^ 32 := by
    have hmul := Nat.mul_le_mul_left numDevices (hn.trans_le hle)
    omega
  have halphaPos : 0 < alpha :=
    Nat.pos_of_mul_pos_left (hhalf ▸ hn : 0 < numDevices / 2 * alpha)
  have hprod : [numDevices].prod = numDevices := List.prod_singleton
  obtain ⟨hdev, hdevicePos, idx, hidx, hvisible⟩ :=
    exists_visible h hpos (by exact pos_of_gt htwoLe : 0 < coord [numDevices] 0)
  rw [zero_mul] at hdev hdevicePos hvisible
  -- The first device has the operand from position `n` of its part on.
  have hfirst : ∀ (k : Nat) (y : Tensor α), n ≤ k → y.shape = paddedShape [numDevices] sharding dim shape →
      borderLine [numDevices] 0 (coord shape dim / numDevices) n m
          (shardLine [numDevices] sharding dim 0 (coord shape dim / numDevices) y)
          (edgeLine numDevices (coord shape dim / numDevices) n m alpha
            (shardLine [numDevices] sharding dim 0 (coord shape dim / numDevices) y)) idx k 0 =
        y.get (lineAt [numDevices] sharding (paddedShape [numDevices] sharding dim shape) dim 0 idx (k - n)) := by
    intro k y hk hy
    have hleft : isLeftSide numDevices 0 = true :=
      (isLeftSide_iff hnum (by decide)).mpr (Nat.zero_mod _)
    rw [borderLine, if_neg fun hinner => by exact absurd (hleft.symm.trans hinner.2.1) (by decide),
      edgeLine, if_pos hleft, appendLine, if_neg (Nat.not_lt.mpr hk), shardLine, hdevicePos, hy,
      zero_mul, zero_add]
  by_cases hends : rhs ≠ 0 ∧ lhs ≠ rhs
  -- The border in front ends with the wrong elements.
  · refine ⟨0, hdev, idx, hidx, hvisible, n, by omega, rhs, by omega, 0, by omega, ?_, ?_, fun y hy => ?_⟩
    · rw [extendSource]
      by_cases hlt : rhs < lhs
      · rw [if_pos hlt]
        exact hends.1.symm
      · rw [if_neg hlt, if_pos (by omega)]
        omega
    · rw [hdevicePos]
      omega
    · rw [hfirst n y (le_refl n) hy, Nat.sub_self]
  by_cases htwo : numDevices = 2
  -- The operand starts where the border should.
  · obtain ⟨hne, hmax⟩ := hwrong htwo
    subst htwo
    have hrhsZero : rhs = 0 := by
      by_contra hrhsPos
      exact hends ⟨hrhsPos, hne⟩
    have hsrc : n ≠ extendSource (coord shape dim) lhs rhs lhs := by
      rw [extendSource, if_neg (lt_irrefl lhs), if_pos (by omega)]
      omega
    by_cases hfull : n < coord shape dim / 2
    · refine ⟨0, hdev, idx, hidx, hvisible, 2 * n, by omega, lhs, by omega, n, by omega, hsrc, ?_, fun y hy => ?_⟩
      · rw [hdevicePos]
        omega
      · have hposition : 2 * n - n = n := by omega
        rw [hfirst _ y (by omega) hy, hposition]
    · obtain ⟨-, -, idx, hidx, hvisible⟩ := exists_visible h hpos (by decide : 1 < coord [2] 0)
      have hlast : devicePos [2] 0 1 = 1 := rfl
      refine ⟨1, by decide, idx, hidx, hvisible, 0, by omega, lhs, by omega, n, by omega, hsrc, ?_, fun y hy => ?_⟩
      · rw [hlast]
        omega
      · rw [borderLine_two rfl, edgeLine, if_neg (by decide), appendLine, if_pos (by omega), shardLine, hlast, hy]
        congr 2
        omega
  -- The middle of the axis.
  · obtain ⟨device, hdev, idx, hidx, hvisible, k, hk, i, hi, j, hj, -, hlt, hposition, hline⟩ :=
      exists_middle h hsizes hpos (by rw [hprod]; exact hnum.le) (by omega) hn htwo
        (edgeLine (α := α) numDevices (coord shape dim / numDevices) n m alpha)
        fun f idx k device hside hle => by
          have hside : isLeftSide numDevices device = true := hside
          rw [edgeLine, if_pos hside, appendLine, if_neg (Nat.not_lt.mpr hle)]
    have hlt := hlt rfl
    refine ⟨device, hdev, idx, hidx, hvisible, k, hk, rhs + i, by omega, j, hj, ?_, by omega, hline⟩
    rw [extendSource]
    by_cases hborder : rhs + i < lhs
    · rw [if_pos hborder]
      omega
    · rw [if_neg hborder, if_pos (by omega)]
      omega

theorem exists_not_exact_extend [Nontrivial α] (h : ShardedDim [numDevices] sharding shape dim 0)
    (hsmall : coord shape dim < 2 ^ 31) (hlhs : lhs ≤ n) (hrhs : rhs ≤ n)
    (hsizes : BorderSizes numDevices (coord shape dim / numDevices) n m alpha) (hpos : 0 ∉ shape) (hn : 0 < n)
    (hwrong : numDevices = 2 → lhs ≠ rhs ∧ n = max lhs rhs) :
    ∃ x : Tensor α, x.shape = shape ∧ ∀ z, lowerExtend dim lhs rhs x = some z →
      ¬Exact (ComputesBorders [numDevices] sharding dim 0 lhs rhs
        ⟨(n - rhs : Nat), (n - lhs : Nat), n, (coord shape dim + 2 * n : Nat)⟩
        (extendCommPatternForEdges dim numDevices) x) z := by
  have hd := h.dim_lt
  have hn' : n ≤ coord shape dim := hsizes.le_size.trans (Nat.div_le_self _ _)
  have hlower : ∀ x z : Tensor α, x.shape = shape → lowerExtend dim lhs rhs x = some z →
      z.shape = shape.set dim (lhs + coord shape dim + rhs) := by
    intro x z hx hz
    subst hx
    obtain ⟨z', hz', halong⟩ :=
      along_lowerExtend hd (Along.self hd) (hlhs.trans hn') (hrhs.trans hn')
    cases hz.symm.trans hz'
    rw [halong.shape_eq, add_assoc]
  have hfit : n - rhs + (lhs + coord shape dim + rhs) ≤ coord shape dim + 2 * n := by omega
  obtain ⟨device, hdev, idx, hidx, hvisible, k, hk, q, hq, j, hj, hne, hposition, hline⟩ :=
    exists_wrong (α := α) h hsmall hlhs hrhs hsizes
      (fun n hn => pos_of_ne_zero fun hzero => hpos (hzero ▸ hn)) hn hwrong
  refine exists_not_exact h hsizes hfit (fun y hy => exists_edgeLine (by exact hsizes) hy) hlower
    hdev hidx hvisible hk hq hposition hj hne (fun x z hx hz => ?_) hline
  subst hx
  exact lowerExtend_get h (hlhs.trans hn') (hrhs.trans hn') hz hvisible hq

/-- The program is exact on every operand if and only if the sizes are those of an `int` and there is nothing to
compute, or there are two devices and two borders of one length. -/
theorem extend_exact_iff [Nontrivial α] {numDevices : Nat}
    (h : ShardedDim [numDevices] sharding shape dim 0) (hlhs : lhs ≤ coord shape dim)
    (hrhs : rhs ≤ coord shape dim) (hfires : Fires [numDevices] sharding shape dim lhs rhs) :
    (∀ x : Tensor α, x.shape = shape → ∃ z, lowerExtend dim lhs rhs x = some z ∧
      Exact (Computes [numDevices] sharding dim 0 lhs rhs x) z) ↔
    coord shape dim < 2 ^ 31 ∧ (0 ∈ shape ∨ lhs = 0 ∧ rhs = 0 ∨ numDevices = 2 ∧ lhs = rhs) := by
  obtain ⟨config, hconfig, hconfigFires⟩ := hfires
  rw [h.numShards_eq] at hconfig hconfigFires
  have hd := h.dim_lt
  have hpos : 0 < numDevices := h.padded.axis_pos
  have hdvd : numDevices ∣ coord shape dim := h.divides
  constructor
  · intro hexact
    have hsmall : coord shape dim < 2 ^ 31 := by
      by_contra hlarge
      obtain ⟨z, -, hz⟩ := hexact (splat shape 0) rfl
      rw [exact_congr fun y => computes_iff h hconfig rfl] at hz
      exact not_exact_of_le h (Nat.le_of_not_lt hlarge) (paddedResultSize_lt hconfig) hz
    refine ⟨hsmall, ?_⟩
    obtain ⟨b, extra, alpha, hb, rfl, -, hextra, hsizes⟩ :=
      configuration_eq hsmall hrhs hlhs hpos hdvd hconfig hconfigFires
    by_contra hcond
    simp only [not_or, not_and] at hcond
    obtain ⟨hnonempty, hborder, hwrong⟩ := hcond
    have hmax : numDevices = 2 → lhs ≠ rhs ∧ b = max lhs rhs := by
      intro htwo
      have hzero := hextra (htwo ▸ Dvd.intro _ rfl)
      exact ⟨hwrong htwo, by omega⟩
    obtain ⟨x, hx, hbad⟩ := exists_not_exact_extend (α := α) h hsmall (by omega : lhs ≤ b) (by omega)
      hsizes hnonempty (by omega) hmax
    obtain ⟨z, hz, hexact⟩ := hexact x hx
    rw [exact_congr fun y => computes_iff h hconfig hx] at hexact
    exact hbad z hz hexact
  · intro ⟨hsmall, hcond⟩ x hx
    subst hx
    obtain ⟨b, extra, alpha, hb, rfl, -, hextra, hsizes⟩ :=
      configuration_eq hsmall hrhs hlhs hpos hdvd hconfig hconfigFires
    obtain ⟨z, hz, halong⟩ := along_lowerExtend hd (Along.self hd) hlhs hrhs
    refine ⟨z, hz, ?_⟩
    rw [exact_congr fun y => computes_iff h hconfig rfl]
    have hfit : b - rhs + (lhs + coord x.shape dim + rhs) ≤ coord x.shape dim + 2 * b := by omega
    obtain ⟨y, hsharded, hyShape, hyGet, hiff⟩ := exact_borders_iff h hsizes _ hfit
      (fun y hy => exists_edgeLine (by exact hsizes) hy) (Nat.add_assoc _ _ _ ▸ halong.shape_eq)
    refine hiff.mpr fun device hdevice idx hidx hvisible k hk j hj hposition => ?_
    obtain hempty | ⟨rfl, rfl⟩ | ⟨rfl, rfl⟩ := hcond
    · have hlong : 0 < coord x.shape dim := by omega
      exact absurd (pos_of_mem_set hd hvisible hlong 0 hempty) (Nat.lt_irrefl 0)
    · have hzero := hextra (Dvd.intro 0 rfl)
      obtain rfl : b = 0 := by omega
      have halpha : alpha = 0 := Nat.le_zero.mp hsizes.alpha_le
      rw [Nat.sub_self, Nat.zero_add, halpha, Nat.add_zero] at hposition
      have hmem := set_mem_indices hvisible (by omega : j < coord x.shape dim)
      rw [set_lineAt, set_coord_self hd] at hmem
      refine (borderLine_zero (by exact hsizes) hk (edgeLine_zero hk)).trans ?_
      have hshard : coord x.shape dim / coord [numDevices] 0 = coord x.shape dim / numDevices := rfl
      rw [shardLine, hshard, hposition, hyGet _ hmem, lowerExtend_get h hlhs hrhs hz hvisible hj,
        if_neg (Nat.not_lt_zero j), Nat.sub_zero, if_pos (by omega)]
    · have hzero := hextra (Dvd.intro _ rfl)
      obtain rfl : b = lhs := by omega
      rw [Nat.sub_self, Nat.zero_add] at hposition
      rw [borderLine_two rfl]
      exact line_of_two h hsizes hlhs hyGet hz hdevice hvisible hk hj hposition

end

/-- Two devices, a border of one element on both sides. -/
theorem extend_exact_iff_pair : ∃ z, lowerExtend 0 1 1 (iota 4) = some z ∧
    Exact (Computes [2] [[0]] 0 0 1 1 (iota 4)) z := by
  have h : ShardedDim [2] [[0]] [4] 0 0 := ⟨by decide, by decide, rfl, rfl, by decide⟩
  have hfires : Fires [2] [[0]] [4] 0 1 1 := by decide
  exact (extend_exact_iff h (by decide) (by decide) hfires).mpr ⟨by decide, .inr (.inr ⟨rfl, rfl⟩)⟩ _ rfl

/-- A border of two elements in front of `0, 1, 2, 3` comes out as `1, 0`. -/
theorem not_exact_two_one : Fires [2] [[0]] [4] 0 2 1 ∧
    ∃ z, lowerExtend 0 2 1 (iota 4) = some z ∧ ¬Exact (Computes [2] [[0]] 0 0 2 1 (iota 4)) z := by
  have h : ShardedDim [2] [[0]] (iota 4).shape 0 0 := ⟨by decide, by decide, rfl, rfl, by decide⟩
  have hsizes : BorderSizes (coord [2] 0) (coord (iota 4).shape 0 / coord [2] 0) 2 4 2 :=
    ⟨rfl, by decide, rfl, by decide, by decide⟩
  have hconfig : getWrapExtendConfiguration 4 1 2 2 = some ⟨1, 0, 2, 8⟩ := by decide
  have hfit : 1 + (2 + coord (iota 4).shape 0 + 1) ≤ coord (iota 4).shape 0 + 2 * 2 := by decide
  obtain ⟨z, hz, halong⟩ := along_lowerExtend h.dim_lt (Along.self h.dim_lt)
    (by decide : 2 ≤ coord (iota 4).shape 0) (by decide : 1 ≤ coord (iota 4).shape 0)
  refine ⟨by decide, z, hz, fun hexact => ?_⟩
  rw [exact_congr fun y => computes_iff h hconfig rfl] at hexact
  obtain ⟨y, -, hyShape, hyGet, hiff⟩ := exact_borders_iff h hsizes _ hfit
    (fun y hy => exists_edgeLine hsizes hy) halong.shape_eq
  have hline := hiff.mp hexact 0 (by decide) [0] (by rw [hyShape]; decide)
    (by rw [hyShape]; decide) 2 (by decide) 1 (by decide) (by decide)
  rw [hyShape] at hline
  have hwrong : borderLine [2] 0 2 2 4 (shardLine [2] [[0]] 0 0 2 y)
      (edgeLine 2 2 2 4 2 (shardLine [2] [[0]] 0 0 2 y)) [0] 2 0 = y.get [0] := by
    rw [borderLine_two rfl, edgeLine, if_pos (by decide), appendLine, if_neg (by decide), shardLine, hyShape]
    rfl
  have hright : z.get [1] = 1 := halong.get_eq [0] (by decide) 1 (by decide)
  have hzero : y.get [0] = 0 := hyGet [0] (by decide)
  have heq := hwrong.symm.trans (hline.trans hright)
  rw [hzero] at heq
  exact absurd heq (by decide)

end EnzymeJax.ExtendCommOptimize
