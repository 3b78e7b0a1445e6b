import EnzymeJax.Communication.Manual
import EnzymeJax.Communication.ShiftPairs

/-!
# All rotations of a sharded dimension

`MultiRotateSpmdOptimize` takes every rotation as a window of a shard with the halos of both neighbours. Each halo
is named after the neighbour it should come from, but `generateShiftPairs` names the target second, so it comes
from the other one.
-/

namespace EnzymeJax.MultiRotateSpmdOptimize

open Tensor List Option

variable {α : Type*}

/-- The extent of a shard, with the padding of the last one. -/
def shardSize (n numDevices : Nat) : Nat := (n + numDevices - 1) / numDevices

def padding (n numDevices : Nat) : Nat := shardSize n numDevices * numDevices - n

/-- The check of the other dimensions divides by the local extent. -/
def Divisible (mesh : Mesh) (sharding : Sharding) (shape : List Nat) (dim : Nat) : Prop :=
  ∀ i < shape.length, i ≠ dim →
    let localSize := coord shape i / numShards mesh (sharding.getD i [])
    localSize ≠ 0 ∧ coord shape i % localSize = 0

instance (mesh : Mesh) (sharding : Sharding) (shape : List Nat) (dim : Nat) :
    Decidable (Divisible mesh sharding shape dim) :=
  inferInstanceAs (Decidable (∀ i < shape.length, _))

/-- When the pattern produces a manual computation. -/
def Fires (mesh : Mesh) (sharding : Sharding) (shape : List Nat) (dim left right : Nat) : Prop :=
  let n := coord shape dim
  let numDevices := numShards mesh (sharding.getD dim [])
  numDevices ≠ 1 ∧ left ≤ shardSize n numDevices ∧ right ≤ shardSize n numDevices ∧
    (right : Int) ≤ shardSize n numDevices - padding n numDevices ∧
    Divisible mesh sharding shape dim

instance (mesh : Mesh) (sharding : Sharding) (shape : List Nat) (dim left right : Nat) :
    Decidable (Fires mesh sharding shape dim left right) :=
  inferInstanceAs (Decidable (_ ∧ _ ∧ _ ∧ _ ∧ _))

/-- The data for rotating left. -/
def leftHalo [Zero α] (mesh : Mesh) (axis dim left : Nat) (localInput : Tensor (Nat → α)) :
    Option (List (Tensor (Nat → α))) :=
  if 0 < left then do
    let sliceToSend ← slice (sliceAlong dim 0 left localInput.shape) localInput
    let halo ← collectivePermute mesh.prod (generateShiftPairs mesh axis false false false) sliceToSend
    some [halo]
  else some []

def isLast (numDevices device : Nat) : Bool :=
  BitVec.ofNat 32 device == BitVec.ofNat 32 (numDevices - 1)

/-- Where the tail of a shard starts, in `i32` arithmetic. -/
def startIdx (shardSize padding numDevices right device : Nat) : Int :=
  let baseStart := BitVec.ofInt 32 (shardSize - right)
  let offset := if isLast numDevices device then BitVec.ofNat 32 padding else 0
  (baseStart - offset).toInt

def rightHalo [Zero α] (mesh : Mesh) (axis dim shardSize padding right : Nat)
    (localInput : Tensor (Nat → α)) : Option (List (Tensor (Nat → α))) :=
  if 0 < right then do
    let shape := localInput.shape
    let sliceToSend ← dynamicSliceDevice
      (startsAlong shape.length dim (startIdx shardSize padding (coord mesh axis) right))
      (shape.set dim right) localInput
    let halo ← collectivePermute mesh.prod (generateShiftPairs mesh axis true false false) sliceToSend
    some [halo]
  else some []

/-- The local program of result `i`. -/
def body [Zero α] (mesh : Mesh) (axis dim shardSize padding left right i : Nat)
    (localInput : Tensor (Nat → α)) : Option (Tensor (Nat → α)) := do
  let leftHalo ← leftHalo mesh axis dim left localInput
  let rightHalo ← rightHalo mesh axis dim shardSize padding right localInput
  let superShard ← concatenate dim (rightHalo ++ localInput :: leftHalo)
  let sliceStart : Int := left - i + right
  slice (sliceAlong dim sliceStart (sliceStart + shardSize) superShard.shape) superShard

/-- What the rewritten program makes of an operand, as result `i`. -/
def Computes [Zero α] (mesh : Mesh) (sharding : Sharding) (dim axis left right i : Nat)
    (x y : Tensor α) : Prop :=
  let n := coord x.shape dim
  let numDevices := numShards mesh (sharding.getD dim [])
  let padding := padding n numDevices
  ∃ input result, (if 0 < padding then
        pad (((List.replicate x.shape.length 0).set dim padding).map fun (high : Nat) => ⟨0, high, 0⟩) 0 x
      else some x) = some input ∧
    ManualComputation mesh sharding
      (body mesh axis dim (shardSize n numDevices) padding left right i) input result ∧
    result.shape = input.shape ∧ removePadding dim 0 x.shape result = some y

/-! ### The lines of the local program -/

section

variable [Zero α] {mesh : Mesh} {sharding : Sharding} {shape ls : List Nat}
  {dim axis size high left right i n : Nat} {f : List Nat → Nat → Nat → α}
  {x : Tensor (Nat → α)}

theorem along_leftHalo (ha : axis < mesh.length) (hd : dim < ls.length)
    (h : Along dim ls size f x) (hleft : left ≤ size) :
    ∃ halo g, leftHalo mesh axis dim left x = some halo ∧ Along.Optional dim ls left g halo ∧
      ∀ idx k, ∀ device < mesh.prod, g idx k device = f idx k (moveAlong mesh axis
        ((devicePos mesh axis device + coord mesh axis - 1) % coord mesh axis) device) := by
  by_cases hpos : 0 < left
  · obtain ⟨sent, hsent, hsentAlong⟩ := h.slice_start left left hd rfl hleft
    obtain ⟨halo, hhalo, g, halong, hg⟩ := along_shift ha false hsentAlong
    refine ⟨[halo], g, ?_, .some halong, fun idx k device hdev => ?_⟩
    · rw [leftHalo, if_pos hpos, hsent]
      simp only [bind_eq_bind, bind_some, hhalo]
    · rw [hg idx k device hdev, if_neg Bool.false_ne_true]
  · obtain rfl : left = 0 := by omega
    exact ⟨[], _, if_neg (lt_irrefl 0), .none _, fun _ _ _ _ => rfl⟩

theorem along_rightHalo (high : Nat) (ha : axis < mesh.length) (hd : dim < ls.length)
    (h : Along dim ls size f x) (hright : right ≤ size) :
    ∃ halo g, rightHalo mesh axis dim size high right x = some halo ∧ Along.Optional dim ls right g halo ∧
      ∀ idx k, ∀ device < mesh.prod, g idx k device =
        let sender := moveAlong mesh axis
          ((devicePos mesh axis device + 1) % coord mesh axis) device
        f idx (clampStart size right (startIdx size high (coord mesh axis) right sender) + k)
          sender := by
  by_cases hpos : 0 < right
  · obtain ⟨sent, hsent, hsentAlong⟩ :=
      h.dynamicSliceDevice hd (startIdx size high (coord mesh axis) right) hright
    obtain ⟨halo, hhalo, g, halong, hg⟩ := along_shift ha true hsentAlong
    refine ⟨[halo], g, ?_, .some halong, fun idx k device hdev => ?_⟩
    · rw [rightHalo, if_pos hpos]
      simp only [hsent, bind_eq_bind, bind_some, hhalo]
    · rw [hg idx k device hdev, if_pos rfl]
  · obtain rfl : right = 0 := by omega
    exact ⟨[], _, if_neg (lt_irrefl 0), .none _, fun _ _ _ _ => rfl⟩

/-- The position of the padded operand that a device has at `s` of its shard between the halos. -/
def source (mesh : Mesh) (axis size high right device s : Nat) : Nat :=
  let numDevices := coord mesh axis
  let pos := devicePos mesh axis device
  if s < right then
    let next := (pos + 1) % numDevices
    let start := startIdx size high numDevices right (moveAlong mesh axis next device)
    next * size + (clampStart size right start + s)
  else if s - right < size then pos * size + (s - right)
  else (pos + numDevices - 1) % numDevices * size + (s - right - size)

omit [Zero α] in
theorem source_lt (high s : Nat) {device : Nat} (h : ShardedAlong mesh sharding shape dim axis size)
    (hdev : device < mesh.prod) (hright : right ≤ size) (hs : s < right + size + size) :
    source mesh axis size high right device s < coord mesh axis * size := by
  have hpos := devicePos_lt hdev h.axis_lt
  have hshard : ∀ c k, c < coord mesh axis → k < size → c * size + k < coord mesh axis * size := by
    intro c k hc hk
    calc c * size + k < c * size + size := Nat.add_lt_add_left hk _
      _ = (c + 1) * size := by ring
      _ ≤ coord mesh axis * size := Nat.mul_le_mul_right _ hc
  rw [source]
  split
  · refine hshard _ _ (Nat.mod_lt _ h.axis_pos) ?_
    have hclamp := clampStart_le hright (startIdx size high (coord mesh axis) right
      (moveAlong mesh axis ((devicePos mesh axis device + 1) % coord mesh axis) device))
    omega
  · split
    · exact hshard _ _ hpos (by omega)
    · exact hshard _ _ (Nat.mod_lt _ h.axis_pos) (by omega)

theorem body_eq (high : Nat) {x : Tensor α} (h : ShardedAlong mesh sharding x.shape dim axis size)
    (hleft : left ≤ size) (hright : right ≤ size) (hi : i ≤ left + right) :
    ∃ locals f, body mesh axis dim size high left right i (shard mesh sharding x) = some locals ∧
      Along dim (localShape mesh sharding x.shape) size f locals ∧
      ∀ idx k, ∀ device < mesh.prod, f idx k device = x.get (lineAt mesh sharding x.shape dim device
        idx (source mesh axis size high right device (left + right - i + k))) := by
  have halong := h.along_shard rfl (x := x)
  have hd := h.dim_lt_local
  obtain ⟨halo₀, g₀, hhalo₀, hline₀, hg₀⟩ := along_leftHalo h.axis_lt hd halong hleft
  obtain ⟨halo₁, g₁, hhalo₁, hline₁, hg₁⟩ :=
    along_rightHalo high h.axis_lt hd halong hright
  obtain ⟨superShard, hsuper, hsuperAlong⟩ := Along.concatenate_optional hd hline₁ halong hline₀
  have hstart : (left : Int) - i + right = (left + right - i : Nat) := by omega
  obtain ⟨locals, hlocals, hres⟩ := hsuperAlong.slice (left + right - i : Nat)
    ((left + right - i : Nat) + size) hd (by omega) (by omega) (by omega)
  have hsize : (((left + right - i : Nat) : Int) + size - (left + right - i : Nat)).toNat = size := by
    omega
  rw [hsize, Int.toNat_natCast] at hres
  refine ⟨locals, _, ?_, hres, fun idx k device hdev => ?_⟩
  · rw [body, hhalo₀, hhalo₁]
    simp only [bind_eq_bind, bind_some, hsuper, hstart, hlocals]
  · have hpos : 0 < coord mesh axis := h.axis_pos
    have hinput : ∀ c k, c < coord mesh axis →
        x.get (lineAt mesh sharding x.shape dim (moveAlong mesh axis c device) idx
          (devicePos mesh axis (moveAlong mesh axis c device) * size + k)) =
        x.get (lineAt mesh sharding x.shape dim device idx (c * size + k)) := by
      intro c k hc
      rw [h.lineAt_moveAlong hdev hc, devicePos_moveAlong hdev h.axis_lt hc]
    rw [appendLine, appendLine, source]
    split
    · rw [hg₁ idx _ device hdev]
      exact hinput _ _ (Nat.mod_lt _ hpos)
    · split
      · rfl
      · rw [hg₀ idx _ device hdev]
        exact hinput _ _ (Nat.mod_lt _ hpos)

/-! ### What every device has to have -/

variable {numDevices : Nat}

theorem shardSize_spec (hpos : 0 < numDevices) :
    n ≤ numDevices * shardSize n numDevices ∧ numDevices * shardSize n numDevices < n + numDevices := by
  have hdiv := Nat.div_add_mod (n + numDevices - 1) numDevices
  have hmod := Nat.mod_lt (n + numDevices - 1) hpos
  rw [shardSize]
  omega

theorem input_eq {x : Tensor α} (hd : dim < x.shape.length) (hpos : 0 < numDevices) :
    ∃ y, (if 0 < padding (coord x.shape dim) numDevices then
        pad (((replicate x.shape.length 0).set dim (padding (coord x.shape dim) numDevices)).map
            fun (high : Nat) => ⟨0, high, 0⟩) 0 x
      else some x) = some y ∧
      y.shape = x.shape.set dim (numDevices * shardSize (coord x.shape dim) numDevices) ∧
      (∀ idx ∈ indices x.shape, y.get idx = x.get idx) ∧
      ∀ idx ∈ indices y.shape, idx ∉ indices x.shape → y.get idx = 0 := by
  obtain ⟨hle, -⟩ := shardSize_spec (n := coord x.shape dim) hpos
  have hpadding : padding (coord x.shape dim) numDevices +
      coord x.shape dim = numDevices * shardSize (coord x.shape dim) numDevices := by
    rw [padding, mul_comm]
    omega
  split
  · have hlen : ((replicate x.shape.length 0).set dim
        (padding (coord x.shape dim) numDevices)).length = x.shape.length := by
      rw [length_set, length_replicate]
    obtain ⟨y, hy, hshape, hget⟩ := pad_high (x := x) hlen
    have hyShape : y.shape = x.shape.set dim (numDevices * shardSize (coord x.shape dim) numDevices) := by
      rw [hshape]
      refine ext_getElem (by simp) fun j hj hj' => ?_
      have hj : j < x.shape.length := by rwa [length_set] at hj'
      simp only [getElem_zipWith, getElem_set, getElem_replicate]
      by_cases heq : dim = j
      · subst heq
        have hcoord : coord x.shape dim = x.shape[dim] := by rw [coord, getD_eq_getElem _ _ hj]
        rw [if_pos rfl, if_pos rfl]
        omega
      · rw [if_neg heq, if_neg heq, add_zero]
    refine ⟨y, hy, hyShape, hget, fun idx hidx hout => pad_high_outside hlen hy ?_ hout⟩
    rw [length_of_mem_indices hidx, hyShape, length_set]
  · have hzero : numDevices * shardSize (coord x.shape dim) numDevices = coord x.shape dim := by omega
    refine ⟨x, rfl, ?_, fun _ _ => rfl, fun idx hidx hout => absurd hidx hout⟩
    rw [hzero, set_coord_self hd]

omit [Zero α] in
theorem along_lowerRotate_emod {x : Tensor α} (hd : dim < x.shape.length) {t : Int}
    (ht : coord x.shape dim = 0 → t = 0) :
    ∃ z, lowerRotate dim (t % coord x.shape dim) x = some z ∧
      Along dim x.shape (coord x.shape dim) (fun idx k => x.get (idx.set dim
        ((k + (t % coord x.shape dim).toNat) % coord x.shape dim))) z := by
  by_cases hzero : coord x.shape dim = 0
  · obtain ⟨z, hz, halong⟩ := along_lowerRotate hd (Along.self hd) (Nat.zero_le _)
    refine ⟨z, ?_, halong.congr fun idx _ k hk => absurd hk (by omega)⟩
    rw [ht hzero, Int.zero_emod]
    exact hz
  · have hnonneg := Int.emod_nonneg t (by omega : (coord x.shape dim : Int) ≠ 0)
    have hlt := Int.emod_lt_of_pos t (by omega : (0 : Int) < coord x.shape dim)
    obtain ⟨z, hz, halong⟩ := along_rotate hd (Along.self hd)
      (by omega : (t % coord x.shape dim).toNat < coord x.shape dim)
    rw [Int.toNat_of_nonneg hnonneg] at hz
    exact ⟨z, hz, halong⟩

theorem computes_iff (haxis : sharding[dim]? = some [axis]) (hnum : coord mesh axis = numDevices)
    {x input y : Tensor α} (hinput : (if 0 < padding (coord x.shape dim) numDevices then
        pad (((replicate x.shape.length 0).set dim
          (padding (coord x.shape dim) numDevices)).map fun (high : Nat) => ⟨0, high, 0⟩) 0 x
      else some x) = some input) : Computes mesh sharding dim axis left right i x y ↔ ∃ result,
      ManualComputation mesh sharding (body mesh axis dim (shardSize (coord x.shape dim) numDevices)
        (padding (coord x.shape dim) numDevices) left right i) input result ∧
      result.shape = input.shape ∧ removePadding dim 0 x.shape result = some y := by
  have hshards : numShards mesh (sharding.getD dim []) = numDevices := by
    rw [getD_eq_getElem?_getD, haxis, getD_some, numShards_one, hnum]
  rw [Computes, hshards]
  constructor
  · intro ⟨input', result, hinput', hrest⟩
    cases hinput.symm.trans hinput'
    exact ⟨result, hrest⟩
  · intro ⟨result, hrest⟩
    exact ⟨input, result, hinput, hrest⟩

theorem exact_computes_iff (hmesh : ∀ n ∈ mesh, 0 < n) {x z : Tensor α}
    (h : ShardedAlong mesh sharding (x.shape.set dim (coord mesh axis * size)) dim axis size)
    (hsize : shardSize (coord x.shape dim) (coord mesh axis) = size) (hleft : left ≤ size)
    (hright : right ≤ size) (hi : i ≤ left + right) (hz : z.shape = x.shape) :
    ∃ y : Tensor α, (∀ idx ∈ indices x.shape, y.get idx = x.get idx) ∧
      (∀ idx ∈ indices (x.shape.set dim (coord mesh axis * size)), idx ∉ indices x.shape → y.get idx = 0) ∧
      (Exact (Computes mesh sharding dim axis left right i x) z ↔ ∀ device < mesh.prod, ∀ idx ∈ indices
            ((localShape mesh sharding (x.shape.set dim (coord mesh axis * size))).set dim 1),
          lineAt mesh sharding (x.shape.set dim (coord mesh axis * size)) dim device idx 0 ∈
            indices (x.shape.set dim 1) →
          ∀ k < size, ∀ j < coord x.shape dim, devicePos mesh axis device * size + k = 0 + j →
            y.get (lineAt mesh sharding (x.shape.set dim (coord mesh axis * size)) dim device idx
                (source mesh axis size (padding (coord x.shape dim) (coord mesh axis)) right device
                  (left + right - i + k))) =
              z.get (lineAt mesh sharding (x.shape.set dim (coord mesh axis * size)) dim device idx j)) := by
  have hd : dim < x.shape.length := by
    have hdim := h.dim_lt
    rwa [length_set] at hdim
  subst hsize
  obtain ⟨y, hy, hyShape, hyGet, hyZero⟩ := input_eq hd h.axis_pos
  rw [← hyShape] at h
  obtain ⟨locals, f, hbody, hlocals, hlines⟩ := body_eq (padding (coord x.shape dim)
    (coord mesh axis)) h hleft hright hi
  have hassembled : ∀ y', Computes mesh sharding dim axis left right i x y' ↔
      Assembled mesh sharding dim 0 x.shape y.shape locals y' := by
    intro y'
    rw [computes_iff h.axis rfl hy]
    constructor
    · intro ⟨result, hmanual, hshape, hremove⟩
      exact ⟨result, (manualComputation_iff h.divides hbody).mp hmanual, hshape, hremove⟩
    · intro ⟨result, hassembles, hshape, hremove⟩
      exact ⟨result, (manualComputation_iff h.divides hbody).mpr hassembles, hshape, hremove⟩
  have hle : Forall₂ (· ≤ ·) (x.shape.set dim (0 + coord x.shape dim)) y.shape := by
    rw [hyShape, zero_add]
    exact forall₂_le_set (forall₂_same.mpr fun _ _ => le_refl _)
      (shardSize_spec h.axis_pos).1
  refine ⟨y, hyGet, hyShape ▸ hyZero, ?_⟩
  rw [exact_congr hassembled, exact_iff_lines h (prod_pos hmesh) h.localShape_set_size.symm hlocals hz hle, hyShape]
  refine forall_congr' fun device => forall_congr' fun hdev => forall_congr' fun idx => ?_
  rw [← hyShape]
  refine forall_congr' fun hidx => forall_congr' fun hvisible => forall_congr' fun k => ?_
  rw [hlines idx k device hdev]

theorem exact_iff_source [Nontrivial α] (hok : ShardingOk mesh sharding) (hmesh : ∀ n ∈ mesh, 0 < n)
    (hrank : sharding.length = shape.length) (haxis : sharding[dim]? = some [axis])
    (hother : ∃ idx, idx ∈ indices (shape.set dim 1)) (hsize : shardSize (coord shape dim) (coord mesh axis) = size)
    (hleft : left ≤ size) (hright : right ≤ size) (hi : i ≤ left + right) :
    (∀ x : Tensor α, x.shape = shape → ∃ z, lowerRotate dim (((left : Int) - i) % coord shape dim) x = some z ∧
        Exact (Computes mesh sharding dim axis left right i x) z) ↔
    Divides mesh sharding (shape.set dim (coord mesh axis * size)) ∧
      ∀ device < mesh.prod, ∀ k < size, ∀ j < coord shape dim, devicePos mesh axis device * size + k = j →
          source mesh axis size (padding (coord shape dim) (coord mesh axis)) right device
              (left + right - i + k) =
            (j + (((left : Int) - i) % coord shape dim).toNat) % coord shape dim := by
  have hd : dim < shape.length := hrank ▸ (List.getElem?_eq_some_iff.mp haxis).1
  have hpos : 0 < coord mesh axis := by
    have hlt := hok.2 axis (mem_flatten.mpr ⟨_, mem_of_getElem? haxis, mem_cons_self⟩)
    rw [coord, getD_eq_getElem _ _ hlt]
    exact hmesh _ (getElem_mem hlt)
  have hsharded : Divides mesh sharding (shape.set dim (coord mesh axis * size)) →
      ShardedAlong mesh sharding (shape.set dim (coord mesh axis * size)) dim axis size :=
    fun hdivides => ⟨hok, hdivides, haxis, hpos, coord_set_self hd _⟩
  have hamount : coord shape dim = 0 → (left : Int) - i = 0 := by
    intro hzero
    have hspec := shardSize_spec (n := coord shape dim) hpos
    have hsizeZero : size = 0 := by
      by_contra hne
      have hmul := Nat.mul_le_mul_left (coord mesh axis) (pos_of_ne_zero hne)
      rw [hsize] at hspec
      omega
    omega
  constructor
  · intro hexact
    have hdivides : Divides mesh sharding (shape.set dim (coord mesh axis * size)) := by
      obtain ⟨z, -, ⟨y, hy⟩, -⟩ := hexact (splat shape 0) rfl
      obtain ⟨input, hinput, hshape, -⟩ := input_eq (x := (splat shape 0 : Tensor α)) hd hpos
      obtain ⟨result, hmanual, -⟩ := (computes_iff haxis rfl hinput).mp hy
      have hdivides := hmanual.1
      rw [hshape] at hdivides
      exact hsize ▸ hdivides
    refine ⟨hdivides, fun device hdev k hk j hj hposition => ?_⟩
    by_contra hne
    classical
    obtain ⟨a, ha⟩ := exists_ne (0 : α)
    have h := hsharded hdivides
    obtain ⟨idx, hidx⟩ : ∃ idx, idx ∈ indices
        ((localShape mesh sharding (shape.set dim (coord mesh axis * size))).set dim 1) := by
      obtain ⟨idx, hidx⟩ := hother
      have hmem := set_mem_indices hidx (Nat.mul_pos hpos (pos_of_gt hk))
      obtain ⟨_, _, l, hl, _⟩ := exists_globalIndex hok hdivides (unravel_mem_indices hdev) hmem
      rw [← h.localShape_set_size] at hl
      exact ⟨_, set_mem_indices hl one_pos⟩
    have hlen : idx.length = (shape.set dim (coord mesh axis * size)).length := by
      rw [length_of_mem_indices hidx, length_set, h.localShape_length]
    have hvisible := h.lineAt_mem hdev (pos_of_gt hk) hidx
    rw [set_set] at hvisible
    let x : Tensor α := ⟨shape, fun idx => if coord idx dim =
      (j + (((left : Int) - i) % coord shape dim).toNat) % coord shape dim then a else 0⟩
    obtain ⟨z, hz, hzExact⟩ := hexact x rfl
    obtain ⟨z', hz', halong⟩ := along_lowerRotate_emod (x := x) hd hamount
    cases hz.symm.trans hz'
    have hzShape : z.shape = x.shape := by rw [halong.shape_eq, set_coord_self hd]
    obtain ⟨y, hget, hzero, hiff⟩ :=
      exact_computes_iff (x := x) hmesh h hsize hleft hright hi hzShape
    have hline := hiff.mp hzExact device hdev idx hidx hvisible k hk j hj
      (hposition.trans (zero_add j).symm)
    have hexpected : z.get (lineAt mesh sharding (shape.set dim (coord mesh axis * size)) dim device idx j) = a := by
      rw [get_lineAt halong hvisible hj, set_lineAt]
      exact if_pos (h.coord_lineAt hlen)
    have hsrc := source_lt (padding (coord shape dim) (coord mesh axis))
      (left + right - i + k) h hdev hright (by omega)
    have hmem : ∀ n, source mesh axis size (padding (coord shape dim) (coord mesh axis)) right device
        (left + right - i + k) < n → lineAt mesh sharding (shape.set dim (coord mesh axis * size)) dim
          device idx (source mesh axis size (padding (coord shape dim) (coord mesh axis)) right device
            (left + right - i + k)) ∈ indices (shape.set dim n) := by
      intro n hn
      have hset := set_mem_indices hvisible hn
      rwa [set_lineAt] at hset
    refine ha (hexpected.symm.trans (hline.symm.trans ?_))
    by_cases hin : source mesh axis size (padding (coord shape dim) (coord mesh axis)) right device
        (left + right - i + k) < coord shape dim
    · have hinShape := hmem _ hin
      rw [set_coord_self hd] at hinShape
      rw [hget _ hinShape]
      exact if_neg fun heq => hne ((h.coord_lineAt hlen).symm.trans heq)
    · refine hzero _ (hmem _ hsrc) fun hinShape => hin ?_
      have hlt := coord_lt hinShape hd
      rwa [h.coord_lineAt hlen] at hlt
  · rintro ⟨hdivides, hsrc⟩ x hx
    subst hx
    obtain ⟨z, hz, halong⟩ := along_lowerRotate_emod hd hamount
    have hzShape : z.shape = x.shape := by rw [halong.shape_eq, set_coord_self hd]
    obtain ⟨y, hget, -, hiff⟩ := exact_computes_iff hmesh (hsharded hdivides) hsize hleft hright hi hzShape
    refine ⟨z, hz, hiff.mpr fun device hdev idx hidx hvisible k hk j hj hposition => ?_⟩
    rw [zero_add] at hposition
    have hmem := set_mem_indices hvisible (Nat.mod_lt (j + (((left : Int) - i) % coord x.shape dim).toNat)
      (pos_of_gt hj))
    rw [set_lineAt, set_coord_self hd] at hmem
    rw [hsrc device hdev k hk j hj hposition, hget _ hmem, get_lineAt halong hvisible hj, set_lineAt]

end

/-! ### The positions that the devices read -/

section

variable {mesh : Mesh} {sharding : Sharding} {shape : List Nat}
  {axis size high left right n numDevices device j k : Nat}

theorem isLast_iff (hnum : numDevices ≤ 2 ^ 32) (hdev : device < 2 ^ 32) :
    isLast numDevices device = true ↔ device = numDevices - 1 := by
  rw [isLast, beq_iff_eq, ← BitVec.toNat_inj, BitVec.toNat_ofNat, BitVec.toNat_ofNat,
    Nat.mod_eq_of_lt hdev, Nat.mod_eq_of_lt (by omega)]

theorem startIdx_eq (high numDevices device : Nat) (hsmall : size - right < 2 ^ 31) (hright : right ≤ size)
    (hhigh : high ≤ size - right) :
    startIdx size high numDevices right device =
      (size - right - (if isLast numDevices device then high else 0) : Nat) := by
  have hoffset : (if isLast numDevices device = true then BitVec.ofNat 32 high else 0) =
      BitVec.ofNat 32 (if isLast numDevices device then high else 0) := by
    split <;> rfl
  have hle : (if isLast numDevices device then high else 0) ≤ size - right := by
    split
    · exact hhigh
    · exact Nat.zero_le _
  rw [startIdx, hoffset]
  generalize (if isLast numDevices device then high else 0) = offset at hle
  have hbase : (size : Int) - right = (size - right : Nat) := by omega
  have hnat : (BitVec.ofNat 32 (size - right) - BitVec.ofNat 32 offset).toNat = size - right - offset := by
    rw [BitVec.toNat_sub, BitVec.toNat_ofNat, BitVec.toNat_ofNat,
      Nat.mod_eq_of_lt (by omega : size - right < 2 ^ 32), Nat.mod_eq_of_lt (by omega : offset < 2 ^ 32)]
    omega
  rw [hbase, BitVec.ofInt_natCast, BitVec.toInt_eq_toNat_of_lt (by omega), hnat]

theorem clampStart_lt (high numDevices device : Nat) (hlarge : 2 ^ 31 ≤ size - right) :
    clampStart size right (startIdx size high numDevices right device) < size - right := by
  have hlt : startIdx size high numDevices right device < 2 ^ 31 := by
    rw [startIdx]
    exact BitVec.toInt_lt
  rw [clampStart]
  omega

theorem rotated_eq {r : Nat} {t q : Int} (hr : r < n) (h : (j : Int) + t = r + n * q) :
    (j + (t % n).toNat) % n = r := by
  have hne : (n : Int) ≠ 0 := by omega
  have hcast : (((j + (t % n).toNat) % n : Nat) : Int) = r := by
    rw [Int.natCast_emod, Int.natCast_add, Int.toNat_of_nonneg (Int.emod_nonneg t hne),
      Int.add_emod_emod, h, Int.add_mul_emod_self_left, Int.emod_eq_of_lt (by omega) (by omega)]
  exact Int.ofNat_inj.mp hcast

/-- Every device reads the positions of every rotation. -/
def ReadsRight (mesh : Mesh) (axis size high left right n : Nat) : Prop :=
  ∀ i ≤ left + right, ∀ device < mesh.prod, ∀ k < size, ∀ j < n, devicePos mesh axis device * size + k = j →
      source mesh axis size high right device (left + right - i + k) = (j + (((left : Int) - i) % n).toNat) % n

/-- The sizes of shards of which the last one has `high` elements of padding. -/
structure Sizes (numDevices size high left right n : Nat) : Prop where
  extent : numDevices * size = n + high
  high_lt : high < numDevices
  left_le : left ≤ size
  right_le : right + high ≤ size

variable (ha : axis < mesh.length) (hmesh : ∀ n ∈ mesh, 0 < n) (hsizes : Sizes (coord mesh axis) size high left right n)

include ha hmesh hsizes

theorem two_of_readsRight (htwo : 2 ≤ coord mesh axis) (hreads : ReadsRight mesh axis size high left right n)
    (hborder : 0 < left ∨ 0 < right) : coord mesh axis = 2 := by
  by_contra hthree
  have hextent := hsizes.extent
  have hleft := hsizes.left_le
  have hright := hsizes.right_le
  have hprod := prod_pos hmesh
  have hroom := Nat.mul_le_mul_right size (by omega : 2 ≤ coord mesh axis - 1)
  have hlast : (coord mesh axis - 1) * size + size = coord mesh axis * size := by
    rw [← Nat.add_one_mul, Nat.sub_add_cancel (by omega)]
  have hsize : 0 < size := by omega
  -- The first device needs the start of the second one, and gets that of the last one.
  by_cases hleftPos : 0 < left
  · have hlong : size - 1 < n := by
      by_contra hge
      have hdouble := Nat.mul_le_mul_right size htwo
      omega
    have hline := hreads (left - 1) (by omega) 0 hprod (size - 1) (by omega) (size - 1) hlong
      (by rw [devicePos_zero, zero_mul, zero_add])
    have hs : left + right - (left - 1) + (size - 1) = right + size := by omega
    have hmod := Nat.mod_le (size - 1 + (((left : Int) - (left - 1 : Nat)) % n).toNat) n
    have hone : ((left : Int) - (left - 1 : Nat)) = 1 := by omega
    have hamount : ((1 : Int) % n).toNat ≤ 1 := by
      by_cases hn : n = 1
      · rw [hn]
        decide
      · rw [Int.emod_eq_of_lt (by omega) (by omega)]
        decide
    rw [hs, source, if_neg (by omega), if_neg (by omega), devicePos_zero, zero_add,
      Nat.mod_eq_of_lt (by omega), Nat.add_sub_cancel_left, Nat.sub_self, add_zero] at hline
    have hle := Nat.mod_le (size - 1 + (((left : Int) - (left - 1 : Nat)) % n).toNat) n
    rw [← hline, hone] at hle
    omega
  -- The second device needs the end of the first one, and gets that of the third one.
  · have hrightPos : 0 < right := by omega
    have hdev := moveAlong_lt hprod ha (by omega : 1 < coord mesh axis)
    have hpos := devicePos_moveAlong hprod ha (by omega : 1 < coord mesh axis)
    have hline := hreads (left + 1) (by omega) _ hdev 0 hsize size (by omega)
      (by rw [hpos, one_mul, add_zero])
    have hminus : ((left : Int) - (left + 1 : Nat)) = -1 := by omega
    have hexpected : (size + ((-1 : Int) % n).toNat) % n = size - 1 :=
      rotated_eq (q := 0) (by omega) (by omega)
    have hnext : (1 + 1) % coord mesh axis = 2 := Nat.mod_eq_of_lt (by omega)
    rw [source, if_pos (by omega), hpos, hnext, hminus, hexpected] at hline
    dsimp only at hline
    omega

theorem bounds_of_readsRight (hdevices : mesh.prod ≤ 2 ^ 32) (htwo : coord mesh axis = 2)
    (hreads : ReadsRight mesh axis size high left right n) :
    (right = 0 ∨ size - right < 2 ^ 31) ∧ (high = 0 ∨ left = 0 ∧ (right = 0 ∨ mesh.prod = 2)) := by
  have hextent := hsizes.extent
  have hhigh := hsizes.high_lt
  have hleft := hsizes.left_le
  have hright := hsizes.right_le
  have hprod := prod_pos hmesh
  have hone : (1 : Nat) < coord mesh axis := by omega
  have hdev := moveAlong_lt hprod ha hone
  have hpos := devicePos_moveAlong hprod ha hone
  rw [htwo] at hextent hhigh
  -- The second device needs the end of the first one.
  have hsmall : right = 0 ∨ size - right < 2 ^ 31 := by
    by_contra hlarge
    obtain ⟨hrightPos, hlarge⟩ := not_or.mp hlarge
    have hline := hreads (left + 1) (by omega) _ hdev 0 (by omega) size (by omega)
      (by rw [hpos, one_mul, add_zero])
    have hminus : ((left : Int) - (left + 1 : Nat)) = -1 := by omega
    have hexpected : (size + ((-1 : Int) % n).toNat) % n = size - 1 :=
      rotated_eq (q := 0) (by omega) (by omega)
    have hclamp := clampStart_lt high 2
      (moveAlong mesh axis 0 (moveAlong mesh axis 1 0)) (by omega : 2 ^ 31 ≤ size - right)
    rw [source, if_pos (by omega), hpos, htwo, hminus, hexpected] at hline
    dsimp only at hline
    rw [Nat.mod_self, zero_mul, zero_add] at hline
    omega
  refine ⟨hsmall, ?_⟩
  by_cases hzero : high = 0
  · exact .inl hzero
  have hhighOne : high = 1 := by omega
  have hleftZero : left = 0 := by
    by_contra hleftPos
    have hminus : ((left : Int) - (left - 1 : Nat)) = 1 := by omega
    have hexpected : (n - 1 + ((1 : Int) % n).toNat) % n = 0 :=
      rotated_eq (q := 1) (by omega) (by omega)
    -- The last element is followed by padding.
    by_cases hsize : size = 1
    · have hline := hreads (left - 1) (by omega) 0 hprod 0 (by omega) 0 (by omega)
        (by rw [devicePos_zero, zero_mul])
      have hnOne : n - 1 = 0 := by omega
      rw [hnOne] at hexpected
      have hs : left + right - (left - 1) + 0 = 1 := by omega
      rw [hs, source, if_neg (by omega), if_neg (by omega), devicePos_zero, htwo, hminus, hexpected, hsize] at hline
      omega
    · have hline := hreads (left - 1) (by omega) _ hdev (size - 2) (by omega) (n - 1) (by omega)
        (by rw [hpos]; omega)
      have hs : left + right - (left - 1) + (size - 2) = right + (size - 1) := by omega
      rw [hs, source, if_neg (by omega), if_pos (by omega), hpos, hminus, hexpected] at hline
      omega
  refine .inr ⟨hleftZero, ?_⟩
  by_contra hmany
  obtain ⟨hrightPos, hmany⟩ := not_or.mp hmany
  -- The last device has the last shard and does not know it.
  have hlast : devicePos mesh axis (mesh.prod - 1) = 1 := by rw [devicePos_last hmesh ha, htwo]
  have hlastLt : mesh.prod - 1 < mesh.prod := by omega
  have hzeroLt : 0 < coord mesh axis := by omega
  have hreceiver := moveAlong_lt hlastLt ha hzeroLt
  have hreceiverPos := devicePos_moveAlong hlastLt ha hzeroLt
  have hsender : moveAlong mesh axis 1 (moveAlong mesh axis 0 (mesh.prod - 1)) = mesh.prod - 1 := by
    have hback := moveAlong_devicePos hlastLt ha
    rw [hlast] at hback
    rw [moveAlong_moveAlong hlastLt ha hzeroLt, hback]
  have hflag : isLast 2 (mesh.prod - 1) = false := by
    rw [← Bool.not_eq_true, isLast_iff (by decide) (by omega)]
    omega
  have hstart := startIdx_eq high 2 (mesh.prod - 1)
    (hsmall.resolve_left hrightPos) (by omega) (by omega)
  rw [hflag, if_neg Bool.false_ne_true, Nat.sub_zero] at hstart
  have hline := hreads 1 (by omega) _ hreceiver 0 (by omega) 0 (by omega)
    (by rw [hreceiverPos, zero_mul])
  have hminus : ((left : Int) - (1 : Nat)) = -1 := by omega
  have hexpected : (0 + ((-1 : Int) % n).toNat) % n = n - 1 :=
    rotated_eq (q := -1) (by omega) (by omega)
  rw [source, if_pos (by omega), hreceiverPos, htwo, hminus, hexpected] at hline
  dsimp only at hline
  rw [zero_add, Nat.mod_eq_of_lt (by decide : 1 < 2), hsender, hstart, clampStart_eq _ (by omega)] at hline
  omega

omit ha hmesh hsizes in
theorem readsRight_zero : ReadsRight mesh axis size high 0 0 n := by
  intro i hi device hdev k hk j hj hposition
  obtain rfl : i = 0 := by omega
  have hexpected : (j + ((((0 : Nat) : Int) - (0 : Nat)) % n).toNat) % n = j :=
    rotated_eq (q := 0) hj (by omega)
  rw [hexpected, source, if_neg (Nat.not_lt_zero _), if_pos (by omega)]
  omega

theorem clampStart_of_two (htwo : coord mesh axis = 2) (hsmall : size - right < 2 ^ 31)
    (hhigh : high = 0 ∨ mesh.prod = 2) {c : Nat} (hc : c < 2) (hdev : device < mesh.prod) :
    clampStart size right (startIdx size high 2 right (moveAlong mesh axis c device)) =
      size - right - (if c = 1 then high else 0) := by
  have hright := hsizes.right_le
  have hsender := moveAlong_lt hdev ha (htwo ▸ hc : c < coord mesh axis)
  have hpos := devicePos_moveAlong hdev ha (htwo ▸ hc : c < coord mesh axis)
  rw [startIdx_eq _ _ _ hsmall (by omega) (by omega)]
  have hflag : (if isLast 2 (moveAlong mesh axis c device) then high else 0) =
      if c = 1 then high else 0 := by
    obtain rfl | hpair := hhigh
    · rw [ite_self, ite_self]
    · have hnumber : moveAlong mesh axis c device = c := by
        by_cases hzero : moveAlong mesh axis c device = 0
        · rw [hzero, devicePos_zero] at hpos
          omega
        · have hlast : moveAlong mesh axis c device = mesh.prod - 1 := by omega
          rw [hlast, devicePos_last hmesh ha] at hpos
          omega
      rw [hnumber]
      congr 1
      rw [isLast_iff (by decide) (by omega)]
  rw [hflag]
  refine clampStart_eq _ ?_
  split <;> omega

theorem readsRight_of_two (htwo : coord mesh axis = 2) (hsmall : right = 0 ∨ size - right < 2 ^ 31)
    (hhigh : high = 0 ∨ left = 0 ∧ (right = 0 ∨ mesh.prod = 2)) : ReadsRight mesh axis size high left right n := by
  intro i hi device hdev k hk j hj hposition
  have hextent := hsizes.extent
  have hleft := hsizes.left_le
  have hright := hsizes.right_le
  have hpos := devicePos_lt hdev ha
  rw [htwo] at hextent hpos
  rw [source, htwo]
  by_cases hhalo : left + right - i + k < right
  · have hpair : high = 0 ∨ mesh.prod = 2 := by omega
    rw [if_pos hhalo]
    dsimp only
    rw [clampStart_of_two ha hmesh hsizes htwo (hsmall.resolve_left (by omega)) hpair
      (Nat.mod_lt _ two_pos) hdev]
    by_cases hfirst : devicePos mesh axis device = 0
    · rw [hfirst] at hposition ⊢
      refine (rotated_eq (q := -1) ?_ ?_).symm
      · simp only [zero_add, Nat.mod_eq_of_lt (by decide : 1 < 2), if_true]
        omega
      · simp only [zero_add, Nat.mod_eq_of_lt (by decide : 1 < 2), if_true]
        omega
    · obtain hsecond : devicePos mesh axis device = 1 := by omega
      rw [hsecond] at hposition ⊢
      refine (rotated_eq (q := 0) ?_ ?_).symm
      · simp only [Nat.mod_self, zero_mul, if_neg (by decide : ¬(0 = 1))]
        omega
      · simp only [Nat.mod_self, zero_mul, if_neg (by decide : ¬(0 = 1))]
        omega
  rw [if_neg hhalo]
  by_cases hshard : left + right - i + k - right < size
  · rw [if_pos hshard]
    refine (rotated_eq (q := 0) ?_ ?_).symm
    · obtain hfirst | hsecond : devicePos mesh axis device = 0 ∨ devicePos mesh axis device = 1 := by
        omega
      · rw [hfirst] at hposition ⊢
        omega
      · rw [hsecond] at hposition ⊢
        omega
    · generalize devicePos mesh axis device * size = start at *
      omega
  · rw [if_neg hshard]
    have hzero : high = 0 := by omega
    obtain hfirst | hsecond : devicePos mesh axis device = 0 ∨ devicePos mesh axis device = 1 := by
      omega
    · rw [hfirst] at hposition ⊢
      refine (rotated_eq (q := 0) ?_ ?_).symm
      · omega
      · omega
    · rw [hsecond] at hposition ⊢
      refine (rotated_eq (q := 1) ?_ ?_).symm
      · omega
      · omega

end

/-! ### Every multi-rotate -/

theorem sizes_of_fires {mesh : Mesh} {sharding : Sharding} {shape : List Nat}
    {dim axis left right : Nat} (hpos : 0 < coord mesh axis) (haxis : sharding[dim]? = some [axis])
    (hfires : Fires mesh sharding shape dim left right) :
    2 ≤ coord mesh axis ∧ Sizes (coord mesh axis) (shardSize (coord shape dim) (coord mesh axis))
      (padding (coord shape dim) (coord mesh axis)) left right (coord shape dim) := by
  have hnum : numShards mesh (sharding.getD dim []) = coord mesh axis := by
    rw [getD_eq_getElem?_getD, haxis, getD_some, numShards_one]
  obtain ⟨hne, hleft, -, hright, -⟩ := hfires
  rw [hnum] at hne hleft hright
  obtain ⟨hle, hlt⟩ := shardSize_spec (n := coord shape dim) hpos
  have hpadding : padding (coord shape dim) (coord mesh axis) =
      coord mesh axis * shardSize (coord shape dim) (coord mesh axis) - coord shape dim := by
    rw [padding, mul_comm]
  exact ⟨by omega, by omega, by omega, hleft, by omega⟩

theorem exists_index_of_fires {mesh : Mesh} {sharding : Sharding} {shape : List Nat} {dim left right : Nat}
    (hfires : Fires mesh sharding shape dim left right) : ∃ idx, idx ∈ indices (shape.set dim 1) := by
  obtain ⟨-, -, -, -, hdivisible⟩ := hfires
  refine ⟨_, zeros_mem_indices fun n hn => ?_⟩
  obtain ⟨i, hi, rfl⟩ := getElem_of_mem hn
  rw [getElem_set]
  split
  · exact one_pos
  · rename_i hne
    rw [length_set] at hi
    obtain ⟨hlocal, -⟩ := hdivisible i hi (Ne.symm hne)
    rw [coord, getD_eq_getElem _ _ hi] at hlocal
    exact pos_of_ne_zero fun hzero => hlocal (by rw [hzero, Nat.zero_div])

/-- Every result is the rotation of every operand if and only if the other dimensions have equal shards and nothing
is rotated, or there are two devices, the start of a tail is an `i32`, and padding is not rotated or only to the
right by devices that know which one is the last. -/
theorem multiRotate_exact_iff {α : Type*} [Zero α] [Nontrivial α] {mesh : Mesh} {sharding : Sharding}
    {shape : List Nat} {dim axis left right : Nat} (hok : ShardingOk mesh sharding)
    (hmesh : ∀ n ∈ mesh, 0 < n) (hdevices : mesh.prod ≤ 2 ^ 32)
    (hrank : sharding.length = shape.length) (haxis : sharding[dim]? = some [axis])
    (hfires : Fires mesh sharding shape dim left right) :
    (∀ x : Tensor α, x.shape = shape → ∀ i ≤ left + right,
      ∃ z, lowerRotate dim (((left : Int) - i) % coord shape dim) x = some z ∧
        Exact (Computes mesh sharding dim axis left right i x) z) ↔
    Divides mesh sharding
        (shape.set dim (coord mesh axis * shardSize (coord shape dim) (coord mesh axis))) ∧
      (left = 0 ∧ right = 0 ∨ coord mesh axis = 2 ∧ (right = 0 ∨ shardSize (coord shape dim) 2 - right < 2 ^ 31) ∧
        (padding (coord shape dim) 2 = 0 ∨ left = 0 ∧ mesh.prod = 2)) := by
  have ha := hok.2 axis
    (mem_flatten.mpr ⟨_, mem_of_getElem? haxis, mem_cons_self⟩)
  have hpos : 0 < coord mesh axis := by
    rw [coord, getD_eq_getElem _ _ ha]
    exact hmesh _ (getElem_mem ha)
  obtain ⟨htwo, hsizes⟩ := sizes_of_fires hpos haxis hfires
  have hright := hsizes.right_le
  have hiff := fun i (hi : i ≤ left + right) => exact_iff_source (α := α) hok hmesh hrank haxis
    (exists_index_of_fires hfires) rfl hsizes.left_le (by omega) hi
  constructor
  · intro hexact
    have hall := fun i hi => (hiff i hi).mp fun x hx => hexact x hx i hi
    have hreads : ReadsRight mesh axis (shardSize (coord shape dim) (coord mesh axis))
        (padding (coord shape dim) (coord mesh axis)) left right (coord shape dim) :=
      fun i hi => (hall i hi).2
    refine ⟨(hall 0 (Nat.zero_le _)).1, ?_⟩
    by_cases hborder : left = 0 ∧ right = 0
    · exact .inl hborder
    have hpair := two_of_readsRight ha hmesh hsizes htwo hreads (by omega)
    obtain ⟨hsmall, hhigh⟩ := bounds_of_readsRight ha hmesh hsizes hdevices hpair hreads
    rw [hpair] at hsmall hhigh
    exact .inr ⟨hpair, hsmall, by omega⟩
  · rintro ⟨hdivides, hcond⟩ x hx i hi
    refine (hiff i hi).mpr ⟨hdivides, ?_⟩ x hx
    obtain ⟨rfl, rfl⟩ | ⟨hpair, hsmall, hhigh⟩ := hcond
    · exact readsRight_zero i hi
    · refine readsRight_of_two ha hmesh hsizes hpair (by rw [hpair]; exact hsmall) ?_ i hi
      rw [hpair]
      omega

/-- Two devices, rotations by one element to both sides; the last result is the one to the right. -/
theorem multiRotate_exact_iff_pair : ∃ z, lowerRotate 0 (((1 : Nat) - (2 : Nat) : Int) % (4 : Nat)) (iota 4) = some z ∧
    Exact (Computes [2] [[0]] 0 0 1 1 2 (iota 4)) z := by
  have hfires : Fires [2] [[0]] [4] 0 1 1 := by decide
  refine (multiRotate_exact_iff (by decide) (by decide) (by decide) rfl rfl hfires).mpr ⟨by decide, ?_⟩ _ rfl 2
    (by decide)
  exact .inr ⟨rfl, .inr (by decide), .inl (by decide)⟩

/-- Of six elements on three devices, the first device gets 4 after its 1 in place of 2. -/
theorem not_exact_three : Fires [3] [[0]] [6] 0 1 0 ∧
    ∃ z, lowerRotate 0 (((1 : Nat) - (0 : Nat) : Int) % (6 : Nat)) (iota 6) = some z ∧
      ¬Exact (Computes [3] [[0]] 0 0 1 0 0 (iota 6)) z := by
  have hsharded : ShardedAlong [3] [[0]] ((iota 6).shape.set 0 (coord [3] 0 * 2)) 0 0 2 :=
    ⟨by decide, by decide, rfl, by decide, rfl⟩
  obtain ⟨z, hz, halong⟩ := along_lowerRotate_emod (x := iota 6) (by decide : 0 < 1)
    (fun h : coord (iota 6).shape 0 = 0 => absurd h (by decide) :
      _ → ((1 : Nat) - (0 : Nat) : Int) = 0)
  refine ⟨by decide, z, hz, fun hexact => ?_⟩
  obtain ⟨y, hget, -, hiff⟩ := exact_computes_iff (x := iota 6) (by decide) hsharded (by decide)
    (by decide : 1 ≤ 2) (by decide : 0 ≤ 2) (by decide : 0 ≤ 1 + 0) halong.shape_eq
  have hline := hiff.mp hexact 0 (by decide) [0] (by decide) (by decide) 1 (by decide) 1 (by decide)
    (by decide)
  have hwrong : y.get [4] = 4 := hget [4] (by decide)
  have hright : z.get [1] = 2 := halong.get_eq [0] (by decide) 1 (by decide)
  have hread : lineAt [3] [[0]] ((iota 6).shape.set 0 (coord [3] 0 * 2)) 0 0 [0]
      (source [3] 0 2 (padding (coord (iota 6).shape 0) (coord [3] 0)) 0 0 (1 + 0 - 0 + 1)) = [4] := by
    decide
  have hplace : lineAt [3] [[0]] ((iota 6).shape.set 0 (coord [3] 0 * 2)) 0 0 [0] 1 = [1] := by decide
  rw [hread, hplace, hwrong, hright] at hline
  exact absurd hline (by decide)

end EnzymeJax.MultiRotateSpmdOptimize
