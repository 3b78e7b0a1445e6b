import EnzymeJax.Communication.Border

/-!
# Wrapping a sharded dimension

`WrapCommOptimize` lets the ends of the axis send each other the borders. It takes the position of a device modulo
the devices along the axis, and shifts the right half of the others the wrong way, so the result is right for
two devices that are numbered in the order of the axis.
-/

namespace EnzymeJax.WrapCommOptimize

open Tensor Option

variable {α : Type*}

def Fires (mesh : Mesh) (sharding : Sharding) (shape : List Nat) (dim lhs rhs : Nat) : Prop :=
  let n := coord shape dim
  let numDevices := numShards mesh (sharding.getD dim [])
  ∃ config ∈ getWrapExtendConfiguration n lhs rhs numDevices, config.Fires n numDevices

instance (mesh : Mesh) (sharding : Sharding) (shape : List Nat) (dim lhs rhs : Nat) :
    Decidable (Fires mesh sharding shape dim lhs rhs) :=
  inferInstanceAs (Decidable (∃ config ∈ _, _))

/-- What the rewritten program makes of an operand. -/
def Computes [Zero α] (mesh : Mesh) (sharding : Sharding) (dim axis lhs rhs : Nat)
    (x y : Tensor α) : Prop :=
  let numDevices := numShards mesh (sharding.getD dim [])
  ∃ config ∈ getWrapExtendConfiguration (coord x.shape dim) lhs rhs numDevices,
    ComputesBorders mesh sharding dim axis lhs rhs config
      (wrapCommPatternForEdges mesh axis dim numDevices) x y

section

variable [Zero α] {mesh : Mesh} {sharding : Sharding} {shape : List Nat} {dim axis size n m alpha lhs rhs : Nat}

def edgeLine (mesh : Mesh) (axis size n m alpha : Nat) (f : List Nat → Nat → Nat → α)
    (idx : List Nat) (k device : Nat) : α :=
  let numDevices := coord mesh axis
  let comm := edgeComm mesh axis numDevices size n f
  if isLeftSide numDevices device then appendLine n comm f idx k device
  else appendLine (m - n) (fun idx k => f idx (n - alpha + k)) comm idx k device

variable {x z y : Tensor α} {idx : List Nat} {k device : Nat}

theorem exists_edgeLine (hsizes : BorderSizes (coord mesh axis) size n m alpha)
    (h : ShardedAlong mesh sharding x.shape dim axis size) :
    ∃ y g, wrapCommPatternForEdges mesh axis dim (coord mesh axis) n m (shard mesh sharding x) =
        some y ∧ Along dim (localShape mesh sharding x.shape) m g y ∧
      ∀ idx k, ∀ device < mesh.prod, g idx k device =
        edgeLine mesh axis size n m alpha (shardLine mesh sharding dim axis size x) idx k device :=
  wrapEdges_eq h hsizes.two_le hsizes.tdiv_eq hsizes.alpha_le hsizes.le_size hsizes.size_eq

theorem edgeLine_zero {f : List Nat → Nat → Nat → α} (hk : k < m) :
    edgeLine mesh axis size 0 m alpha f idx k device = f idx k device := by
  rw [edgeLine]
  split
  · rw [appendLine, if_neg (Nat.not_lt_zero k), Nat.sub_zero]
  · rw [appendLine, Nat.sub_zero, if_pos hk, Nat.zero_sub, zero_add]

/-! ### Two devices -/

theorem edgeComm_two (htwo : coord mesh axis = 2) (h : ShardedAlong mesh sharding x.shape dim axis size)
    (hdev : device < mesh.prod) :
    edgeComm mesh axis 2 size n (shardLine mesh sharding dim axis size x) idx k device =
      x.get (lineAt mesh sharding x.shape dim device idx ((1 - devicePos mesh axis device) * size +
        if isLeftSide 2 (moveAlong mesh axis (1 - devicePos mesh axis device) device) then k
        else size - n + k)) := by
  have hpos := devicePos_lt hdev h.axis_lt
  rw [htwo] at hpos
  have htarget : edgeTarget 2 (devicePos mesh axis device) = some (1 - devicePos mesh axis device) := by
    rw [edgeTarget_eq (le_refl 2) hpos]
    grind
  rw [edgeComm, received, htwo, htarget, map_some, getD_some, sentLine]
  by_cases hleft : isLeftSide 2 (moveAlong mesh axis (1 - devicePos mesh axis device) device) = true
  · simp only [hleft, Bool.not_true, Bool.false_eq_true, if_false, if_true]
    exact shardLine_moveAlong h hdev (by omega) idx k
  · simp only [hleft, Bool.not_false, Bool.false_eq_true, if_false, if_true]
    exact shardLine_moveAlong h hdev (by omega) idx _

theorem isLeftSide_two (hdev : device < 2 ^ 32) : isLeftSide 2 device = true ↔ device % 2 = 0 :=
  isLeftSide_iff (by decide) hdev

omit [Zero α] in
theorem lowerWrap_get {padded : List Nat} {j : Nat} (h : ShardedDim mesh sharding x.shape dim axis)
    (hlhs : lhs ≤ coord x.shape dim) (hrhs : rhs ≤ coord x.shape dim) (hz : lowerWrap dim lhs rhs x = some z)
    (hvisible : lineAt mesh sharding padded dim device idx 0 ∈ indices (x.shape.set dim 1))
    (hj : j < lhs + coord x.shape dim + rhs) : z.get (lineAt mesh sharding padded dim device idx j) =
      x.get (lineAt mesh sharding padded dim device idx (if j < lhs then coord x.shape dim - lhs + j
          else if j - lhs < coord x.shape dim then j - lhs else j - lhs - coord x.shape dim)) := by
  obtain ⟨z', hz', halong⟩ := along_lowerWrap h.dim_lt (Along.self h.dim_lt) hlhs hrhs
  cases hz.symm.trans hz'
  rw [get_lineAt halong hvisible (Nat.add_assoc _ _ _ ▸ hj), appendLine, appendLine]
  split
  · rw [set_lineAt]
  · split
    · rw [set_lineAt]
    · rw [set_lineAt]

theorem line_of_two (h : ShardedDim mesh sharding x.shape dim axis) (hdevices : mesh.prod ≤ 2 ^ 32)
    (htwo : coord mesh axis = 2)
    (hsizes : BorderSizes (coord mesh axis) (coord x.shape dim / coord mesh axis) n m alpha) (hlhs : lhs ≤ n)
    (hrhs : rhs ≤ n)
    (hflags : ∀ device < mesh.prod, HasPart mesh sharding dim x.shape device → device % 2 = devicePos mesh axis device)
    (hyShape : y.shape = paddedShape mesh sharding dim x.shape)
    (hyGet : ∀ idx ∈ indices x.shape, y.get idx = x.get idx) (hz : lowerWrap dim lhs rhs x = some z) {j : Nat}
    (hdev : device < mesh.prod) (hidx : idx ∈ indices ((localShape mesh sharding y.shape).set dim 1))
    (hvisible : lineAt mesh sharding y.shape dim device idx 0 ∈ indices (x.shape.set dim 1)) (hk : k < m)
    (hj : j < lhs + coord x.shape dim + rhs) (hposition : devicePos mesh axis device * m + k = n - lhs + j) :
    edgeLine mesh axis (coord x.shape dim / coord mesh axis) n m alpha
        (shardLine mesh sharding dim axis (coord x.shape dim / coord mesh axis) y) idx k device =
      z.get (lineAt mesh sharding y.shape dim device idx j) := by
  have hsharded : ShardedAlong mesh sharding y.shape dim axis
      (coord x.shape dim / coord mesh axis) := hyShape ▸ h.padded
  have hpos := devicePos_lt hdev hsharded.axis_lt
  have hother : 1 - devicePos mesh axis device < coord mesh axis := by omega
  have hneighbour := moveAlong_lt hdev hsharded.axis_lt hother
  have hside := hflags device hdev ⟨idx, hyShape ▸ hidx, hyShape ▸ hvisible⟩
  have hside' := hflags _ hneighbour ⟨idx, hyShape ▸ hidx, by
    rw [← hyShape, hsharded.lineAt_moveAlong hdev hother]
    exact hvisible⟩
  rw [devicePos_moveAlong hdev hsharded.axis_lt hother] at hside'
  have hextent := h.extent_eq
  have hhalf := hsizes.half
  have hm := hsizes.size_eq
  have hle := hsizes.le_size
  have hdev' : device < 2 ^ 32 := hdev.trans_le hdevices
  have hneighbour' := hneighbour.trans_le hdevices
  have hget : ∀ i < coord x.shape dim, y.get (lineAt mesh sharding y.shape dim device idx i) =
      x.get (lineAt mesh sharding y.shape dim device idx i) := by
    intro i hi
    have hmem := set_mem_indices hvisible hi
    rw [set_lineAt, set_coord_self h.dim_lt] at hmem
    exact hyGet _ hmem
  generalize coord x.shape dim / coord mesh axis = size at *
  rw [htwo] at hextent hhalf hpos
  rw [Nat.div_self two_pos, one_mul] at hhalf
  rw [lowerWrap_get h (by omega) (by omega) hz hvisible hj, edgeLine, htwo]
  by_cases hfirst : devicePos mesh axis device = 0
  · have hleft : isLeftSide 2 device = true := (isLeftSide_two hdev').mpr (by omega)
    have hright : isLeftSide 2 (moveAlong mesh axis (1 - devicePos mesh axis device) device) = false := by
      rw [← Bool.not_eq_true, isLeftSide_two hneighbour']
      omega
    rw [hfirst, zero_mul] at hposition
    rw [if_pos hleft, appendLine]
    by_cases hborder : k < n
    · rw [if_pos hborder, edgeComm_two htwo hsharded hdev, hright, hfirst, if_neg Bool.false_ne_true,
        if_pos (by omega), hget _ (by omega)]
      congr 2
      omega
    · rw [if_neg hborder, shardLine, hfirst, if_neg (by omega), if_pos (by omega), hget _ (by omega)]
      congr 2
      omega
  · have hlast : devicePos mesh axis device = 1 := by omega
    have hright : isLeftSide 2 device = false := by
      rw [← Bool.not_eq_true, isLeftSide_two hdev']
      omega
    have hleft : isLeftSide 2 (moveAlong mesh axis (1 - devicePos mesh axis device) device) = true :=
      (isLeftSide_two hneighbour').mpr (by omega)
    rw [hlast, one_mul] at hposition
    rw [hright, if_neg Bool.false_ne_true, appendLine]
    by_cases hborder : k < m - n
    · rw [if_pos hborder, shardLine, hlast, if_neg (by omega), if_pos (by omega), hget _ (by omega)]
      congr 2
      omega
    · rw [if_neg hborder, edgeComm_two htwo hsharded hdev, hleft, hlast, if_pos rfl,
        if_neg (by omega), if_neg (by omega), hget _ (by omega)]
      congr 2
      omega

theorem exists_wrong (h : ShardedDim mesh sharding shape dim axis) (hdevices : mesh.prod ≤ 2 ^ 32)
    (htwo : coord mesh axis = 2)
    (hsizes : BorderSizes (coord mesh axis) (coord shape dim / coord mesh axis) n m alpha) (hn : 0 < n)
    (hdev : device < mesh.prod) (hwrong : device % 2 ≠ devicePos mesh axis device) (idx : List Nat) :
    ∃ k < m, ∃ i < coord shape dim, ∃ j < coord shape dim, j ≠ i ∧ devicePos mesh axis device * m + k = n + i ∧
      ∀ y : Tensor α, y.shape = paddedShape mesh sharding dim shape →
        edgeLine mesh axis (coord shape dim / coord mesh axis) n m alpha
            (shardLine mesh sharding dim axis (coord shape dim / coord mesh axis) y) idx k device =
          y.get (lineAt mesh sharding (paddedShape mesh sharding dim shape) dim device idx j) := by
  have hpos := devicePos_lt hdev h.padded.axis_lt
  have hextent := h.extent_eq
  have hhalf := hsizes.half
  have hm := hsizes.size_eq
  have hle := hsizes.le_size
  have hsharded := h.padded
  have hdev' := hdev.trans_le hdevices
  generalize coord shape dim / coord mesh axis = size at *
  rw [htwo] at hextent hhalf hpos
  rw [Nat.div_self two_pos, one_mul] at hhalf
  -- What comes from the other end is its first element, whichever part it sends, if `n = size`.
  have hcomm : ∀ y : Tensor α, y.shape = paddedShape mesh sharding dim shape → n = size →
      edgeComm mesh axis 2 size n (shardLine mesh sharding dim axis size y) idx 0 device =
        y.get (lineAt mesh sharding (paddedShape mesh sharding dim shape) dim device idx
          ((1 - devicePos mesh axis device) * size)) := by
    intro y hy hfull
    rw [edgeComm_two htwo (hy ▸ hsharded) hdev, hfull, Nat.sub_self, zero_add, ite_self, add_zero, hy]
  by_cases hfirst : devicePos mesh axis device = 0
  · have hside : isLeftSide 2 device = false := by
      rw [← Bool.not_eq_true, isLeftSide_two hdev']
      omega
    refine ⟨n, by omega, 0, by omega, n, by omega, by omega, by rw [hfirst]; omega, fun y hy => ?_⟩
    rw [edgeLine, htwo, hside, if_neg Bool.false_ne_true, appendLine]
    by_cases hfull : n = size
    · have hzero : n - (m - n) = 0 := by omega
      rw [if_neg (by omega), hzero, hcomm y hy hfull, hfirst, hfull, Nat.sub_zero, one_mul]
    · have hstart : n - alpha + n = n := by omega
      rw [if_pos (by omega), shardLine, hfirst, hy, zero_mul, zero_add, hstart]
  · have hlast : devicePos mesh axis device = 1 := by omega
    have hside : isLeftSide 2 device = true := (isLeftSide_two hdev').mpr (by omega)
    by_cases hfull : n = size
    · refine ⟨0, by omega, size, by omega, 0, by omega, by omega, by rw [hlast]; omega, fun y hy => ?_⟩
      rw [edgeLine, htwo, hside, if_pos rfl, appendLine, if_pos hn, hcomm y hy hfull, hlast, Nat.sub_self, zero_mul]
    · refine ⟨n, by omega, size + n, by omega, size, by omega, by omega, by rw [hlast]; omega, fun y hy => ?_⟩
      rw [edgeLine, htwo, hside, if_pos rfl, appendLine, if_neg (lt_irrefl n), Nat.sub_self,
        shardLine, hlast, hy, one_mul, add_zero]

/-! ### Every wrap -/

theorem computes_iff (h : ShardedDim mesh sharding shape dim axis) {config : WrapExtendConfiguration}
    (hconfig : getWrapExtendConfiguration (coord shape dim) lhs rhs (coord mesh axis) = some config)
    (hx : x.shape = shape) :
    Computes mesh sharding dim axis lhs rhs x y ↔ ComputesBorders mesh sharding dim axis lhs rhs config
      (wrapCommPatternForEdges mesh axis dim (coord mesh axis)) x y := by
  rw [Computes, hx, h.numShards_eq, hconfig]
  simp

theorem exists_not_exact_wrap [Nontrivial α] (h : ShardedDim mesh sharding shape dim axis)
    (hdevices : mesh.prod ≤ 2 ^ 32) (hlhs : lhs ≤ coord shape dim) (hrhs : rhs ≤ coord shape dim)
    (hsmall : coord shape dim < 2 ^ 31) (hlhsBorder : lhs ≤ n) (hrhsBorder : rhs ≤ n)
    (hsizes : BorderSizes (coord mesh axis) (coord shape dim / coord mesh axis) n m alpha) (hpos : 0 ∉ shape)
    (hn : 0 < n) (hwrong : coord mesh axis = 2 → ∃ device < mesh.prod, HasPart mesh sharding dim shape device ∧
      device % 2 ≠ devicePos mesh axis device) :
    ∃ x : Tensor α, x.shape = shape ∧ ∀ z, lowerWrap dim lhs rhs x = some z →
      ¬Exact (ComputesBorders mesh sharding dim axis lhs rhs
        ⟨(n - lhs : Nat), (n - rhs : Nat), n, (coord shape dim + 2 * n : Nat)⟩
        (wrapCommPatternForEdges mesh axis dim (coord mesh axis)) x) z := by
  have hd := h.dim_lt
  have hlower : ∀ x z : Tensor α, x.shape = shape → lowerWrap dim lhs rhs x = some z →
      z.shape = shape.set dim (lhs + coord shape dim + rhs) := by
    intro x z hx hz
    subst hx
    obtain ⟨z', hz', halong⟩ := along_lowerWrap hd (Along.self hd) hlhs hrhs
    cases hz.symm.trans hz'
    rw [halong.shape_eq, add_assoc]
  have hfit : n - lhs + (lhs + coord shape dim + rhs) ≤ coord shape dim + 2 * n := by omega
  have hmiddle : ∀ {device i : Nat} {idx : List Nat}, i < coord shape dim →
      lineAt mesh sharding (paddedShape mesh sharding dim shape) dim device idx 0 ∈
        indices (shape.set dim 1) → ∀ x z : Tensor α, x.shape = shape →
      lowerWrap dim lhs rhs x = some z →
        z.get (lineAt mesh sharding (paddedShape mesh sharding dim shape) dim device idx (lhs + i)) =
          x.get (lineAt mesh sharding (paddedShape mesh sharding dim shape) dim device idx i) := by
    intro device i idx hi hvisible x z hx hz
    subst hx
    rw [lowerWrap_get h hlhs hrhs hz hvisible (by omega), if_neg (by omega), if_pos (by omega), Nat.add_sub_cancel_left]
  by_cases htwo : coord mesh axis = 2
  · obtain ⟨device, hdev, ⟨idx, hidx, hvisible⟩, hflag⟩ := hwrong htwo
    obtain ⟨k, hk, i, hi, j, hj, hne, hposition, hline⟩ :=
      exists_wrong (α := α) h hdevices htwo hsizes hn hdev hflag idx
    refine exists_not_exact h hsizes hfit (fun y hy => exists_edgeLine hsizes hy) hlower hdev hidx
      hvisible hk (by omega : lhs + i < _) (by omega) hj hne (hmiddle hi hvisible) fun y hy => ?_
    rw [borderLine_two htwo, hline y hy]
  · obtain ⟨device, hdev, idx, hidx, hvisible, k, hk, i, hi, j, hj, hne, -, hposition, hline⟩ :=
      exists_middle h hsizes (fun n hn => pos_of_ne_zero fun hzero => hpos (hzero ▸ hn)) hdevices
        (by omega) hn htwo
        (edgeLine (α := α) mesh axis (coord shape dim / coord mesh axis) n m alpha)
        fun f idx k device hside hle => by
          rw [edgeLine, if_pos hside, appendLine, if_neg (Nat.not_lt.mpr hle)]
    exact exists_not_exact h hsizes hfit (fun y hy => exists_edgeLine hsizes hy) hlower hdev hidx
      hvisible hk (by omega : lhs + i < _) (by omega) hj hne (hmiddle hi hvisible) hline

/-- The program is exact on every operand if and only if the sizes are those of an `int` and there is nothing to
compute, or two devices are numbered along the axis. -/
theorem wrap_exact_iff [Nontrivial α] (h : ShardedDim mesh sharding shape dim axis)
    (hdevices : mesh.prod ≤ 2 ^ 32) (hlhs : lhs ≤ coord shape dim) (hrhs : rhs ≤ coord shape dim)
    (hfires : Fires mesh sharding shape dim lhs rhs) :
    (∀ x : Tensor α, x.shape = shape → ∃ z, lowerWrap dim lhs rhs x = some z ∧
      Exact (Computes mesh sharding dim axis lhs rhs x) z) ↔
    coord shape dim < 2 ^ 31 ∧ (0 ∈ shape ∨ lhs = 0 ∧ rhs = 0 ∨ coord mesh axis = 2 ∧
      ∀ device < mesh.prod, HasPart mesh sharding dim shape device → device % 2 = devicePos mesh axis device) := by
  obtain ⟨config, hconfig, hconfigFires⟩ := hfires
  rw [h.numShards_eq] at hconfig hconfigFires
  have hd := h.dim_lt
  have hpos := h.padded.axis_pos
  constructor
  · intro hexact
    have hsmall : coord shape dim < 2 ^ 31 := by
      by_contra hlarge
      obtain ⟨z, -, hz⟩ := hexact (splat shape 0) rfl
      rw [exact_congr fun y => computes_iff h hconfig rfl] at hz
      exact not_exact_of_le h (Nat.le_of_not_lt hlarge) (paddedResultSize_lt hconfig) hz
    refine ⟨hsmall, ?_⟩
    obtain ⟨b, extra, alpha, hb, rfl, -, -, hsizes⟩ :=
      configuration_eq hsmall hlhs hrhs hpos h.divides hconfig hconfigFires
    by_contra hcond
    simp only [not_or, not_and, not_forall] at hcond
    obtain ⟨hnonempty, hborder, hwrong⟩ := hcond
    have hbpos : 0 < b := by omega
    obtain ⟨x, hx, hbad⟩ := exists_not_exact_wrap (α := α) h hdevices hlhs hrhs hsmall (by omega)
      (by omega) hsizes hnonempty hbpos fun htwo => by
        obtain ⟨device, hdevice, hpart, hflag⟩ := hwrong htwo
        exact ⟨device, hdevice, hpart, hflag⟩
    obtain ⟨z, hz, hexact⟩ := hexact x hx
    rw [exact_congr fun y => computes_iff h hconfig hx] at hexact
    exact hbad z hz hexact
  · intro ⟨hsmall, hcond⟩ x hx
    subst hx
    obtain ⟨b, extra, alpha, hb, rfl, -, hextra, hsizes⟩ :=
      configuration_eq hsmall hlhs hrhs hpos h.divides hconfig hconfigFires
    obtain ⟨z, hz, halong⟩ := along_lowerWrap hd (Along.self hd) hlhs hrhs
    refine ⟨z, hz, ?_⟩
    rw [exact_congr fun y => computes_iff h hconfig rfl]
    have hfit : b - lhs + (lhs + coord x.shape dim + rhs) ≤ coord x.shape dim + 2 * b := by omega
    obtain ⟨y, hsharded, hyShape, hyGet, hiff⟩ := exact_borders_iff h hsizes _ hfit
      (fun y hy => exists_edgeLine hsizes hy) (Nat.add_assoc _ _ _ ▸ halong.shape_eq)
    refine hiff.mpr fun device hdevice idx hidx hvisible k hk j hj hposition => ?_
    obtain hempty | ⟨rfl, rfl⟩ | ⟨htwo, hflags⟩ := hcond
    · have hlong : 0 < coord x.shape dim := by omega
      exact absurd (pos_of_mem_set hd hvisible hlong 0 hempty) (Nat.lt_irrefl 0)
    · have hzero := hextra (Dvd.intro 0 rfl)
      obtain rfl : b = 0 := by omega
      have halpha : alpha = 0 := Nat.le_zero.mp hsizes.alpha_le
      rw [Nat.sub_self, Nat.zero_add, halpha, Nat.add_zero] at hposition
      have hmem := set_mem_indices hvisible (by omega : j < coord x.shape dim)
      rw [set_lineAt, set_coord_self hd] at hmem
      rw [borderLine_zero hsizes hk (edgeLine_zero hk), shardLine, hposition, hyGet _ hmem,
        lowerWrap_get h hlhs hrhs hz hvisible hj, if_neg (Nat.not_lt_zero j), Nat.sub_zero,
        if_pos (by omega)]
    · rw [borderLine_two htwo]
      exact line_of_two h hdevices htwo hsizes (by omega) (by omega) hflags hyShape hyGet hz hdevice
        hidx hvisible hk hj hposition

end

/-- Two devices, a border of one element on both sides. -/
theorem wrap_exact_iff_pair : ∃ z, lowerWrap 0 1 1 (iota 4) = some z ∧
    Exact (Computes [2] [[0]] 0 0 1 1 (iota 4)) z := by
  have h : ShardedDim [2] [[0]] [4] 0 0 := ⟨by decide, by decide, rfl, rfl, by decide⟩
  have hfires : Fires [2] [[0]] [4] 0 1 1 := by decide
  refine (wrap_exact_iff h (by decide) (by decide) (by decide) hfires).mpr ⟨by decide, ?_⟩ _ rfl
  exact .inr (.inr ⟨rfl, by decide⟩)

/-- On four devices with shards of two elements the third one starts with element 5 in place of 4. -/
theorem not_exact_four : Fires [4] [[0]] [8] 0 2 2 ∧
    ∃ z, lowerWrap 0 2 2 (iota 8) = some z ∧ ¬Exact (Computes [4] [[0]] 0 0 2 2 (iota 8)) z := by
  have h : ShardedDim [4] [[0]] (iota 8).shape 0 0 := ⟨by decide, by decide, rfl, rfl, by decide⟩
  have hsizes : BorderSizes (coord [4] 0) (coord (iota 8).shape 0 / coord [4] 0) 2 3 1 :=
    ⟨rfl, by decide, rfl, by decide, by decide⟩
  have hconfig : getWrapExtendConfiguration 8 2 2 4 = some ⟨0, 0, 2, 12⟩ := by decide
  have hfit : 0 + (2 + coord (iota 8).shape 0 + 2) ≤ coord (iota 8).shape 0 + 2 * 2 := by decide
  obtain ⟨z, hz, halong⟩ := along_lowerWrap h.dim_lt (Along.self h.dim_lt)
    (by decide : 2 ≤ coord (iota 8).shape 0) (by decide : 2 ≤ coord (iota 8).shape 0)
  refine ⟨by decide, z, hz, fun hexact => ?_⟩
  rw [exact_congr fun y => computes_iff h hconfig rfl] at hexact
  obtain ⟨y, -, hyShape, hyGet, hiff⟩ := exact_borders_iff h hsizes _ hfit
    (fun y hy => exists_edgeLine hsizes hy) halong.shape_eq
  have hline := hiff.mp hexact 2 (by decide) [0] (by rw [hyShape]; decide)
    (by rw [hyShape]; decide) 0 (by decide) 6 (by decide) (by decide)
  rw [hyShape] at hline
  have hwrong : borderLine [4] 0 2 2 3 (shardLine [4] [[0]] 0 0 2 y)
      (edgeLine [4] 0 2 2 3 1 (shardLine [4] [[0]] 0 0 2 y)) [0] 0 2 = y.get [5] := by
    rw [borderLine, if_pos (by decide), if_neg (by decide), appendLine, if_pos (by decide), shardLine, hyShape]
    rfl
  have hright : z.get [6] = 4 := halong.get_eq [0] (by decide) 6 (by decide)
  have hfive : y.get [5] = 5 := hyGet [5] (by decide)
  have heq := hwrong.symm.trans (hline.trans hright)
  rw [hfive] at heq
  exact absurd heq (by decide)

end EnzymeJax.WrapCommOptimize
