import EnzymeJax.Library.Indexed

/-!
# Programs that run on every device of a mesh

All devices run one program. A value of it has one shape and an element for each device, so the
operations of StableHLO apply to it as they are. A sharding cuts a tensor along the axes of the mesh.
-/

namespace Tensor

open List

variable {α : Type*}

/-! ### Meshes and shardings -/

/-- The sizes of the axes of a mesh, major first. The devices are numbered in row-major order. -/
abbrev Mesh := List Nat

/-- For each dimension the axes that it is sharded along, major first. -/
abbrev Sharding := List (List Nat)

def numShards (mesh : Mesh) (axes : List Nat) : Nat := (axes.map (coord mesh)).prod

/-- The shard that the device at some coordinates has along a dimension. -/
def shardIndex (mesh : Mesh) (axes : List Nat) (coords : List Nat) : Nat :=
  axes.foldl (fun p a => p * coord mesh a + coord coords a) 0

def localShape (mesh : Mesh) (sharding : Sharding) (shape : List Nat) : List Nat :=
  List.zipWith (fun axes n => n / numShards mesh axes) sharding shape

/-- The place in the whole tensor of an element of the shard at some coordinates. -/
def globalIndex (mesh : Mesh) (sharding : Sharding) (shape coords idx : List Nat) : List Nat :=
  List.zipWith3 (fun axes n i => shardIndex mesh axes coords * (n / numShards mesh axes) + i)
    sharding shape idx

def shard (mesh : Mesh) (sharding : Sharding) (x : Tensor α) : Tensor (Nat → α) :=
  ⟨localShape mesh sharding x.shape, fun idx device =>
    x.get (globalIndex mesh sharding x.shape (unravel mesh device) idx)⟩

/-- The shards have equal size. -/
def Divides (mesh : Mesh) (sharding : Sharding) (shape : List Nat) : Prop :=
  List.Forall₂ (fun axes n => numShards mesh axes ∣ n) sharding shape

instance (mesh : Mesh) (sharding : Sharding) (shape : List Nat) :
    Decidable (Divides mesh sharding shape) :=
  inferInstanceAs (Decidable (List.Forall₂ _ _ _))

/-- The axes of a sharding are distinct axes of the mesh. -/
def ShardingOk (mesh : Mesh) (sharding : Sharding) : Prop :=
  sharding.flatten.Nodup ∧ ∀ a ∈ sharding.flatten, a < mesh.length

instance (mesh : Mesh) (sharding : Sharding) : Decidable (ShardingOk mesh sharding) :=
  inferInstanceAs (Decidable (_ ∧ _))

/-- Every element of the tensor is taken from some device that has it. -/
structure Assembles (mesh : Mesh) (sharding : Sharding) (x : Tensor (Nat → α)) (y : Tensor α) :
    Prop where
  divides : Divides mesh sharding y.shape
  shape_eq : x.shape = localShape mesh sharding y.shape
  get_eq : ∀ idx ∈ indices y.shape, ∃ device < mesh.prod, ∃ l ∈ indices x.shape,
    globalIndex mesh sharding y.shape (unravel mesh device) l = idx ∧ y.get idx = x.get l device

/-! ### Operations that tell the devices apart -/

/-- No device sends twice or receives twice. -/
def PairsOk (numDevices : Nat) (pairs : List (Nat × Nat)) : Prop :=
  (pairs.map Prod.fst).Nodup ∧ (pairs.map Prod.snd).Nodup ∧ ∀ p ∈ pairs, p.1 < numDevices ∧ p.2 < numDevices

instance (numDevices : Nat) (pairs : List (Nat × Nat)) : Decidable (PairsOk numDevices pairs) :=
  inferInstanceAs (Decidable (_ ∧ _ ∧ _))

/-- Every target gets what its source has; the other devices get zeros. -/
def collectivePermute [Zero α] (numDevices : Nat) (pairs : List (Nat × Nat))
    (x : Tensor (Nat → α)) : Option (Tensor (Nat → α)) :=
  if PairsOk numDevices pairs then
    some ⟨x.shape, fun idx device =>
      ((pairs.find? fun p => p.2 == device).map fun p => x.get idx p.1).getD 0⟩
  else none

/-- What the devices get from the branches of an `if`, or from a `select` of two scalars. -/
def ifDevice (pred : Nat → Bool) (x y : Tensor (Nat → α)) : Option (Tensor (Nat → α)) :=
  if x.shape = y.shape then
    some ⟨x.shape, fun idx device => if pred device then x.get idx device else y.get idx device⟩
  else none

/-- A dynamic slice at start indices that every device computes. -/
def dynamicSliceDevice (starts : List (Nat → Int)) (sizes : List Nat) (x : Tensor (Nat → α)) :
    Option (Tensor (Nat → α)) :=
  if DynamicSliceOk x.shape sizes starts.length then
    some ⟨sizes, fun idx device =>
      x.get (dynamicIndex x.shape sizes (starts.map fun start => start device) idx) device⟩
  else none

/-- Start indices that are zero but for dimension `d`. -/
def startsAlong (rank d : Nat) (start : Nat → Int) : List (Nat → Int) :=
  (List.replicate rank 0).set d start

namespace Along

variable {d n m : Nat} {shape : List Nat} {f g : List Nat → Nat → Nat → α} {x y : Tensor (Nat → α)}

theorem collectivePermute [Zero α] {numDevices : Nat} {pairs : List (Nat × Nat)}
    (hpairs : PairsOk numDevices pairs) (h : Along d shape n f x) :
    ∃ y, Tensor.collectivePermute numDevices pairs x = some y ∧ Along d shape n (fun idx k device =>
        ((pairs.find? fun p => p.2 == device).map fun p => f idx k p.1).getD 0) y := by
  refine ⟨_, if_pos hpairs, h.shape_eq, fun idx hidx k hk => ?_⟩
  funext device
  change ((pairs.find? _).map fun p => x.get (idx.set d k) p.1).getD 0 = _
  rw [h.get_eq idx hidx k hk]

theorem ifDevice (pred : Nat → Bool) (hx : Along d shape n f x) (hy : Along d shape n g y) :
    ∃ z, Tensor.ifDevice pred x y = some z ∧
      Along d shape n (fun idx k device => if pred device then f idx k device else g idx k device)
        z := by
  refine ⟨_, if_pos (hx.shape_eq.trans hy.shape_eq.symm), hx.shape_eq, fun idx hidx k hk => ?_⟩
  funext device
  change (if pred device then x.get (idx.set d k) device else y.get (idx.set d k) device) = _
  rw [hx.get_eq idx hidx k hk, hy.get_eq idx hidx k hk]

theorem dynamicSliceDevice (hd : d < shape.length) (start : Nat → Int) (h : Along d shape n f x) (hm : m ≤ n) :
    ∃ y, Tensor.dynamicSliceDevice (startsAlong x.shape.length d start) (x.shape.set d m) x = some y ∧
      Along d shape m (fun idx k device => f idx (clampStart n m (start device) + k) device) y := by
  have hok : DynamicSliceOk x.shape (x.shape.set d m) (startsAlong x.shape.length d start).length := by
    refine ⟨by rw [startsAlong, length_set, length_replicate], ?_⟩
    rw [h.shape_eq, set_set, forall₂_iff_get]
    refine ⟨by rw [length_set, length_set], fun i hi hi' => ?_⟩
    rw [get_eq_getElem, get_eq_getElem, getElem_set, getElem_set]
    split
    · exact hm
    · exact le_rfl
  refine ⟨_, if_pos hok, h.set_shape, fun idx hidx k hk => ?_⟩
  funext device
  have hstarts : (startsAlong x.shape.length d start).map (fun start => start device) =
      (replicate shape.length 0).set d (start device) := by
    rw [startsAlong, map_set, map_replicate, h.length_shape]
    rfl
  have hidx' : idx.set d k ∈ indices (shape.set d m) := set_mem_indices hidx hk
  change x.get (dynamicIndex x.shape (x.shape.set d m) _ (idx.set d k)) device = _
  rw [hstarts, h.set_shape, h.shape_eq, dynamicIndex_along hidx', coord_set_of_mem hd hidx,
    set_set]
  have hclamp := clampStart_le hm (start device)
  exact congrFun (h.get_eq idx hidx _ (by omega)) device

end Along

/-! ### Shards -/

section

variable {mesh : Mesh} {axes : List Nat} {sharding : Sharding} {shape coords coords' idx : List Nat} {d a n j k : Nat}

theorem shardIndex_append_one :
    shardIndex mesh (axes ++ [a]) coords = shardIndex mesh axes coords * coord mesh a + coord coords a := by
  rw [shardIndex, foldl_append]
  rfl

theorem shardIndex_one : shardIndex mesh [a] coords = coord coords a := by
  rw [shardIndex, foldl_cons, zero_mul, zero_add, foldl_nil]

theorem numShards_append_one : numShards mesh (axes ++ [a]) = numShards mesh axes * coord mesh a := by
  simp [numShards]

theorem numShards_one : numShards mesh [a] = coord mesh a := by
  simp [numShards]

theorem shardIndex_congr (h : ∀ a ∈ axes, coord coords' a = coord coords a) :
    shardIndex mesh axes coords' = shardIndex mesh axes coords := by
  induction axes using reverseRecOn with
  | nil => rfl
  | append_singleton axes a ih =>
    rw [shardIndex_append_one, shardIndex_append_one, h a (by simp), ih fun b hb => h b (mem_append_left _ hb)]

theorem shardIndex_lt (hcoords : coords ∈ indices mesh) (haxes : ∀ a ∈ axes, a < mesh.length) :
    shardIndex mesh axes coords < numShards mesh axes := by
  induction axes using reverseRecOn with
  | nil => exact one_pos
  | append_singleton axes a ih =>
    have hlt := coord_lt hcoords (haxes a (by simp))
    have ih := ih fun b hb => haxes b (mem_append_left _ hb)
    rw [shardIndex_append_one, numShards_append_one]
    calc shardIndex mesh axes coords * coord mesh a + coord coords a
        < shardIndex mesh axes coords * coord mesh a + coord mesh a := by omega
      _ = (shardIndex mesh axes coords + 1) * coord mesh a := by ring
      _ ≤ numShards mesh axes * coord mesh a := Nat.mul_le_mul_right _ ih

@[simp] theorem globalIndex_cons {i : Nat} :
    globalIndex mesh (axes :: sharding) (n :: shape) coords (i :: idx) =
      (shardIndex mesh axes coords * (n / numShards mesh axes) + i) ::
        globalIndex mesh sharding shape coords idx := rfl

theorem globalIndex_mem (hcoords : coords ∈ indices mesh) (haxes : ∀ a ∈ sharding.flatten, a < mesh.length)
    (hdivides : Divides mesh sharding shape) (hidx : idx ∈ indices (localShape mesh sharding shape)) :
    globalIndex mesh sharding shape coords idx ∈ indices shape := by
  induction hdivides generalizing idx with
  | nil => exact mem_indices_nil.mpr rfl
  | @cons axes n sharding shape hdvd _ ih =>
    obtain ⟨i, hi, rest, hrest, rfl⟩ := mem_indices_cons.mp hidx
    rw [flatten_cons, forall_mem_append] at haxes
    rw [globalIndex_cons, cons_mem_indices]
    refine ⟨?_, ih haxes.2 hrest⟩
    have hlt := shardIndex_lt hcoords haxes.1
    have hi : i < n / numShards mesh axes := hi
    calc shardIndex mesh axes coords * (n / numShards mesh axes) + i
        < shardIndex mesh axes coords * (n / numShards mesh axes) + n / numShards mesh axes := by
          omega
      _ = (shardIndex mesh axes coords + 1) * (n / numShards mesh axes) := by ring
      _ ≤ numShards mesh axes * (n / numShards mesh axes) := Nat.mul_le_mul_right _ hlt
      _ = n := Nat.mul_div_cancel' hdvd

theorem globalIndex_set (haxis : sharding[d]? = some [a]) (hshape : shape.length = sharding.length)
    (hidx : idx.length = sharding.length) :
    globalIndex mesh sharding shape coords (idx.set d k) = (globalIndex mesh sharding shape coords idx).set d
        (coord coords a * (coord shape d / coord mesh a) + k) := by
  induction sharding generalizing d shape idx with
  | nil => cases haxis
  | cons axes sharding ih =>
    obtain ⟨n, shape, rfl⟩ := exists_cons_of_length_eq_add_one hshape
    obtain ⟨i, idx, rfl⟩ := exists_cons_of_length_eq_add_one hidx
    cases d with
    | zero =>
      cases haxis
      change (shardIndex mesh [a] coords * (n / numShards mesh [a]) + k) :: _ = _
      rw [shardIndex_one, numShards_one]
      rfl
    | succ d =>
      exact congrArg (_ :: ·) (ih haxis (add_right_cancel hshape) (add_right_cancel hidx))

theorem globalIndex_congr (h : ∀ a ∈ sharding.flatten, coord coords' a = coord coords a) :
    globalIndex mesh sharding shape coords' idx = globalIndex mesh sharding shape coords idx := by
  induction sharding generalizing shape idx with
  | nil => rfl
  | cons axes sharding ih =>
    rw [flatten_cons, forall_mem_append] at h
    cases shape with
    | nil => rfl
    | cons n shape =>
      cases idx with
      | nil => rfl
      | cons i idx =>
        rw [globalIndex_cons, globalIndex_cons, shardIndex_congr h.1, ih h.2]

theorem globalIndex_set_congr (haxis : sharding[d]? = some [a]) (hnodup : sharding.flatten.Nodup)
    (h : ∀ b, b ≠ a → coord coords' b = coord coords b) :
    (globalIndex mesh sharding shape coords' idx).set d j = (globalIndex mesh sharding shape coords idx).set d j := by
  induction sharding generalizing d shape idx with
  | nil => cases haxis
  | cons axes sharding ih =>
    rw [flatten_cons] at hnodup
    obtain ⟨-, hnodup', hdisjoint⟩ := nodup_append'.mp hnodup
    cases shape with
    | nil => rfl
    | cons n shape =>
      cases idx with
      | nil => rfl
      | cons i idx =>
        cases d with
        | zero =>
          cases haxis
          have hrest : globalIndex mesh sharding shape coords' idx = globalIndex mesh sharding shape coords idx :=
            globalIndex_congr fun b hb =>
              h b fun heq => hdisjoint mem_cons_self (heq ▸ hb)
          exact congrArg (j :: ·) hrest
        | succ d =>
          have hnot : ∀ b ∈ axes, b ≠ a := fun b hb heq => hdisjoint hb
            (heq ▸ mem_flatten.mpr ⟨[a], mem_of_getElem? haxis, mem_cons_self⟩)
          have hhead : shardIndex mesh axes coords' = shardIndex mesh axes coords :=
            shardIndex_congr fun b hb => h b (hnot b hb)
          rw [globalIndex_cons, globalIndex_cons, set_cons_succ, set_cons_succ, hhead, ih haxis hnodup']

theorem globalIndex_set_shape : (globalIndex mesh sharding (shape.set d n) coords idx).set d j =
      (globalIndex mesh sharding shape coords idx).set d j := by
  induction sharding generalizing d shape idx with
  | nil => rfl
  | cons axes sharding ih =>
    cases shape with
    | nil => rfl
    | cons m shape =>
      cases idx with
      | nil => cases d <;> rfl
      | cons i idx =>
        cases d with
        | zero => rfl
        | succ d => exact congrArg (_ :: ·) ih

theorem localShape_set (haxis : sharding[d]? = some [a]) :
    localShape mesh sharding (shape.set d n) = (localShape mesh sharding shape).set d (n / coord mesh a) := by
  induction sharding generalizing d shape with
  | nil => cases haxis
  | cons axes sharding ih =>
    cases shape with
    | nil => rfl
    | cons m shape =>
      cases d with
      | zero =>
        cases haxis
        change (n / numShards mesh [a]) :: _ = _
        rw [numShards_one]
        rfl
      | succ d => exact congrArg (_ :: ·) (ih haxis)

end

/-! ### A dimension sharded along one axis -/

/-- The position of a device along an axis. -/
def devicePos (mesh : Mesh) (a device : Nat) : Nat := coord (unravel mesh device) a

/-- The device at position `c` along an axis, beside the given one. -/
def moveAlong (mesh : Mesh) (a c device : Nat) : Nat := ravel mesh ((unravel mesh device).set a c)

/-- The place in the whole tensor of position `j` of a line that a device has a part of. -/
def lineAt (mesh : Mesh) (sharding : Sharding) (shape : List Nat) (d device : Nat)
    (idx : List Nat) (j : Nat) : List Nat :=
  (globalIndex mesh sharding shape (unravel mesh device) idx).set d j

/-- Dimension `d` is sharded along axis `a`, in shards of extent `size`. -/
structure ShardedAlong (mesh : Mesh) (sharding : Sharding) (shape : List Nat) (d a size : Nat) :
    Prop where
  ok : ShardingOk mesh sharding
  divides : Divides mesh sharding shape
  axis : sharding[d]? = some [a]
  axis_pos : 0 < coord mesh a
  extent : coord shape d = coord mesh a * size

section

variable {mesh : Mesh} {sharding : Sharding} {shape idx : List Nat} {d a size c device n j k : Nat}

section

variable (hdevice : device < mesh.prod) (ha : a < mesh.length)

include hdevice ha

theorem moveAlong_mem (hc : c < coord mesh a) : (unravel mesh device).set a c ∈ indices mesh := by
  have hmem : unravel mesh device ∈ indices (mesh.set a (coord mesh a)) := by
    rw [set_coord_self ha]
    exact unravel_mem_indices hdevice
  have hset := set_mem_indices hmem hc
  rwa [set_coord_self ha] at hset

theorem devicePos_lt : devicePos mesh a device < coord mesh a :=
  coord_lt (unravel_mem_indices hdevice) ha

theorem moveAlong_lt (hc : c < coord mesh a) : moveAlong mesh a c device < mesh.prod :=
  ravel_lt (moveAlong_mem hdevice ha hc)

theorem unravel_moveAlong (hc : c < coord mesh a) :
    unravel mesh (moveAlong mesh a c device) = (unravel mesh device).set a c :=
  unravel_ravel (moveAlong_mem hdevice ha hc)

theorem devicePos_moveAlong (hc : c < coord mesh a) : devicePos mesh a (moveAlong mesh a c device) = c := by
  rw [devicePos, unravel_moveAlong hdevice ha hc, coord_set_self]
  rwa [length_of_mem_indices (unravel_mem_indices hdevice)]

theorem moveAlong_devicePos : moveAlong mesh a (devicePos mesh a device) device = device := by
  rw [moveAlong, devicePos, set_coord_self, ravel_unravel hdevice]
  rwa [length_of_mem_indices (unravel_mem_indices hdevice)]

end

theorem moveAlong_moveAlong {c' : Nat} (hdevice : device < mesh.prod) (ha : a < mesh.length) (hc : c < coord mesh a) :
    moveAlong mesh a c' (moveAlong mesh a c device) = moveAlong mesh a c' device := by
  rw [moveAlong, unravel_moveAlong hdevice ha hc, set_set, moveAlong]

theorem lineAt_set : lineAt mesh sharding (shape.set d n) d device idx j =
    lineAt mesh sharding shape d device idx j :=
  globalIndex_set_shape

theorem set_lineAt : (lineAt mesh sharding shape d device idx j).set d k =
    lineAt mesh sharding shape d device idx k := by
  rw [lineAt, set_set, lineAt]

variable {x : Tensor α} {coords : List Nat}

namespace ShardedAlong

variable (h : ShardedAlong mesh sharding shape d a size)

include h

theorem dim_lt : d < shape.length := by
  rw [← h.divides.length_eq]
  exact (List.getElem?_eq_some_iff.mp h.axis).1

theorem axis_lt : a < mesh.length :=
  h.ok.2 a (mem_flatten.mpr ⟨[a], mem_of_getElem? h.axis, mem_cons_self⟩)

theorem size_eq : coord shape d / coord mesh a = size := by
  rw [h.extent, Nat.mul_div_cancel_left _ h.axis_pos]

theorem resize (size' : Nat) :
    ShardedAlong mesh sharding (shape.set d (coord mesh a * size')) d a size' where
  ok := h.ok
  divides := by
    have hget := forall₂_iff_get.mp h.divides
    refine forall₂_iff_get.mpr ⟨by rw [length_set]; exact hget.1, fun i hi hi' => ?_⟩
    have hlt : i < shape.length := by rwa [length_set] at hi'
    have hdvd := hget.2 i hi hlt
    simp only [get_eq_getElem, getElem_set] at hdvd ⊢
    split
    · rename_i heq
      subst heq
      have haxes : sharding[d] = [a] := by
        have haxis := h.axis
        rwa [getElem?_eq_getElem hi, Option.some_inj] at haxis
      rw [haxes, numShards_one]
      exact dvd_mul_right _ _
    · exact hdvd
  axis := h.axis
  axis_pos := h.axis_pos
  extent := coord_set_self h.dim_lt _

theorem localShape_length : (localShape mesh sharding shape).length = shape.length := by
  rw [localShape, length_zipWith, h.divides.length_eq, min_self]

theorem dim_lt_local : d < (localShape mesh sharding shape).length := by
  rw [localShape_length h]
  exact h.dim_lt

theorem localShape_set_size : (localShape mesh sharding shape).set d size = localShape mesh sharding shape := by
  rw [← h.size_eq, ← localShape_set h.axis, set_coord_self h.dim_lt]

theorem lineAt_moveAlong (hdevice : device < mesh.prod) (hc : c < coord mesh a) :
    lineAt mesh sharding shape d (moveAlong mesh a c device) idx j = lineAt mesh sharding shape d device idx j := by
  rw [lineAt, lineAt, unravel_moveAlong hdevice h.axis_lt hc]
  refine globalIndex_set_congr h.axis h.ok.1 fun b hb => ?_
  simp [coord, getElem?_set_ne (Ne.symm hb)]

theorem coord_lineAt (hidx : idx.length = shape.length) :
    coord (lineAt mesh sharding shape d device idx j) d = j := by
  refine coord_set_self ?_ j
  have hlen : ∀ {sharding : Sharding} {shape idx : List Nat}, sharding.length = shape.length →
      idx.length = shape.length →
        (globalIndex mesh sharding shape (unravel mesh device) idx).length = shape.length := by
    intro sharding shape idx hsharding hidx
    induction sharding generalizing shape idx with
    | nil => exact hsharding
    | cons axes sharding ih =>
      obtain ⟨n, shape, rfl⟩ := exists_cons_of_length_eq_add_one hsharding.symm
      obtain ⟨i, idx, rfl⟩ := exists_cons_of_length_eq_add_one hidx
      exact congrArg (· + 1) (ih (add_right_cancel hsharding) (add_right_cancel hidx))
  rw [hlen h.divides.length_eq hidx]
  exact h.dim_lt

theorem globalIndex_line (hidx : idx.length = shape.length) :
    globalIndex mesh sharding shape (unravel mesh device) (idx.set d k) =
      lineAt mesh sharding shape d device idx (devicePos mesh a device * size + k) := by
  rw [globalIndex_set h.axis h.divides.length_eq.symm (hidx.trans h.divides.length_eq.symm), h.size_eq]
  rfl

theorem lineAt_mem (hdevice : device < mesh.prod) (hsize : 0 < size)
    (hidx : idx ∈ indices ((localShape mesh sharding shape).set d 1)) :
    lineAt mesh sharding shape d device idx 0 ∈ indices (shape.set d 1) := by
  have hlen : idx.length = shape.length := by
    rw [length_of_mem_indices hidx, length_set, h.localShape_length]
  have hmem := globalIndex_mem (unravel_mem_indices hdevice) h.ok.2 h.divides
    (h.localShape_set_size ▸ set_mem_indices hidx hsize)
  rw [h.globalIndex_line hlen, ← set_coord_self h.dim_lt] at hmem
  have hline := set_mem_indices hmem one_pos
  rwa [lineAt_set, set_lineAt] at hline

theorem along_shard (hx : x.shape = shape) : Along d (localShape mesh sharding shape) size
      (fun idx k device =>
        x.get (lineAt mesh sharding shape d device idx (devicePos mesh a device * size + k)))
      (shard mesh sharding x) := by
  subst hx
  refine ⟨h.localShape_set_size.symm, fun idx hidx k hk => ?_⟩
  funext device
  refine congrArg x.get (h.globalIndex_line ?_)
  rw [length_of_mem_indices hidx, length_set, h.localShape_length]

end ShardedAlong

theorem ShardedAlong.along_shard_set (h : ShardedAlong mesh sharding (shape.set d n) d a size)
    (hx : x.shape = shape.set d n) : Along d (localShape mesh sharding shape) size
      (fun idx k device =>
        x.get (lineAt mesh sharding shape d device idx (devicePos mesh a device * size + k)))
      (shard mesh sharding x) := by
  have halong := h.along_shard hx
  rw [localShape_set h.axis] at halong
  refine halong.of_set.congr fun idx _ k _ => ?_
  funext device
  rw [lineAt_set]

/-! ### The devices at the start of every other axis -/

/-- How far apart the numbers of devices are that are next to each other along an axis. -/
def axisStride (mesh : Mesh) (a : Nat) : Nat := (mesh.drop (a + 1)).prod

theorem moveAlong_zero (ha : a < mesh.length) : moveAlong mesh a c 0 = c * axisStride mesh a := by
  rw [moveAlong, unravel_zero, ravel_set_zeros ha, axisStride]

theorem devicePos_zero : devicePos mesh a 0 = 0 := by
  simp [devicePos, unravel_zero, coord]

theorem devicePos_last (hmesh : ∀ n ∈ mesh, 0 < n) (ha : a < mesh.length) :
    devicePos mesh a (mesh.prod - 1) = coord mesh a - 1 := by
  rw [devicePos, unravel_pred hmesh, coord_map _ _ ha, coord, getD_eq_getElem _ _ ha]

theorem shardIndex_zeros (axes : List Nat) :
    shardIndex mesh axes (replicate mesh.length 0) = 0 := by
  induction axes using reverseRecOn with
  | nil => rfl
  | append_singleton axes a ih =>
    have hzero : coord (replicate mesh.length 0) a = 0 := by simp [coord]
    rw [shardIndex_append_one, ih, hzero, zero_mul]

theorem globalIndex_zeros (h : sharding.length = shape.length) :
    globalIndex mesh sharding shape (replicate mesh.length 0) (replicate shape.length 0) =
      replicate shape.length 0 := by
  induction sharding generalizing shape with
  | nil => rw [eq_nil_of_length_eq_zero h.symm]; rfl
  | cons axes sharding ih =>
    obtain ⟨n, shape, rfl⟩ := exists_cons_of_length_eq_add_one h.symm
    rw [length_cons, replicate_succ, globalIndex_cons, ih (add_right_cancel h), shardIndex_zeros, zero_mul]

theorem localShape_pos (hdivides : Divides mesh sharding shape) (hpos : ∀ n ∈ shape, 0 < n) :
    ∀ n ∈ localShape mesh sharding shape, 0 < n := by
  induction hdivides with
  | nil => nofun
  | @cons axes n sharding shape hdvd _ ih =>
    obtain ⟨hn, hpos⟩ := forall_mem_cons.mp hpos
    refine forall_mem_cons.mpr ⟨?_, ih hpos⟩
    exact Nat.div_pos (Nat.le_of_dvd hn hdvd) (Nat.pos_of_dvd_of_pos hdvd hn)

theorem ShardedAlong.exists_line (h : ShardedAlong mesh sharding shape d a size)
    (hpos : ∀ n ∈ shape, 0 < n) (hmesh : 0 < mesh.prod) (hc : c < coord mesh a) :
    c * axisStride mesh a < mesh.prod ∧ devicePos mesh a (c * axisStride mesh a) = c ∧
      ∃ idx ∈ indices ((localShape mesh sharding shape).set d 1), ∀ j,
        lineAt mesh sharding shape d (c * axisStride mesh a) idx j = (replicate shape.length 0).set d j := by
  rw [← moveAlong_zero h.axis_lt]
  refine ⟨moveAlong_lt hmesh h.axis_lt hc, devicePos_moveAlong hmesh h.axis_lt hc,
    replicate shape.length 0, ?_, fun j => ?_⟩
  · have hset : ∀ n ∈ (localShape mesh sharding shape).set d 1, 0 < n := fun n hn =>
      (mem_or_eq_of_mem_set hn).elim (localShape_pos h.divides hpos n)
        fun heq => heq ▸ one_pos
    have hzeros := zeros_mem_indices hset
    rwa [length_set, h.localShape_length] at hzeros
  · rw [h.lineAt_moveAlong hmesh hc, lineAt, unravel_zero, globalIndex_zeros h.divides.length_eq]

/-! ### Every element is on some device -/

theorem exists_coords {axes : List Nat} (haxes : ∀ a ∈ axes, a < mesh.length) (hnodup : axes.Nodup)
    (hcoords : coords ∈ indices mesh) {p : Nat} (hp : p < numShards mesh axes) :
    ∃ coords' ∈ indices mesh, shardIndex mesh axes coords' = p ∧ ∀ b, b ∉ axes → coord coords' b = coord coords b := by
  induction axes using reverseRecOn generalizing p with
  | nil => exact ⟨coords, hcoords, (Nat.lt_one_iff.mp hp).symm, fun _ _ => rfl⟩
  | append_singleton axes a ih =>
    obtain ⟨hnodup, -, hdisjoint⟩ := nodup_append'.mp hnodup
    have ha : a ∉ axes := disjoint_singleton.mp hdisjoint
    have halt : a < mesh.length := haxes a (by simp)
    rw [numShards_append_one] at hp
    have hpos : 0 < coord mesh a := Nat.pos_of_mul_pos_left (pos_of_gt hp)
    obtain ⟨coords', hmem, hindex, hrest⟩ :=
      ih (fun b hb => haxes b (mem_append_left _ hb)) hnodup
        (Nat.div_lt_of_lt_mul (by rwa [mul_comm]))
    have hset : coords'.set a (p % coord mesh a) ∈ indices mesh := by
      have hmem' := set_mem_indices (n := coord mesh a) ((set_coord_self halt).symm ▸ hmem)
        (Nat.mod_lt p hpos)
      rwa [set_coord_self halt] at hmem'
    have hne : ∀ b, b ≠ a → coord (coords'.set a (p % coord mesh a)) b = coord coords' b :=
      fun b hb => by simp [coord, getElem?_set_ne (Ne.symm hb)]
    refine ⟨_, hset, ?_, fun b hb => ?_⟩
    · rw [shardIndex_append_one, shardIndex_congr fun b hb => hne b fun heq => ha (heq ▸ hb), hindex,
        coord_set_self (by rwa [length_of_mem_indices hmem]), Nat.div_add_mod']
    · rw [mem_append, not_or, mem_singleton] at hb
      rw [hne b hb.2, hrest b hb.1]

theorem exists_globalIndex (hok : ShardingOk mesh sharding) (hdivides : Divides mesh sharding shape)
    (hcoords : coords ∈ indices mesh) (hidx : idx ∈ indices shape) :
    ∃ coords' ∈ indices mesh, ∃ l ∈ indices (localShape mesh sharding shape),
      globalIndex mesh sharding shape coords' l = idx := by
  induction hdivides generalizing idx with
  | nil => exact ⟨coords, hcoords, [], mem_indices_nil.mpr rfl, (mem_indices_nil.mp hidx).symm⟩
  | @cons axes n sharding shape hdvd _ ih =>
    obtain ⟨i, hi, rest, hrest, rfl⟩ := mem_indices_cons.mp hidx
    obtain ⟨hnodup, haxes⟩ := hok
    rw [flatten_cons] at hnodup haxes
    obtain ⟨hnodup₁, hnodup₂, hdisjoint⟩ := nodup_append'.mp hnodup
    obtain ⟨haxes₁, haxes₂⟩ := forall_mem_append.mp haxes
    obtain ⟨coords₁, hmem₁, l, hl, rfl⟩ := ih ⟨hnodup₂, haxes₂⟩ hrest
    have hsize : numShards mesh axes * (n / numShards mesh axes) = n := Nat.mul_div_cancel' hdvd
    have hpos : 0 < n / numShards mesh axes :=
      Nat.pos_of_mul_pos_left (hsize.symm ▸ pos_of_gt hi)
    obtain ⟨coords₂, hmem₂, hindex, hrest₂⟩ := exists_coords haxes₁ hnodup₁ hmem₁
      (Nat.div_lt_of_lt_mul (by rwa [mul_comm, hsize]) : i / (n / numShards mesh axes) < _)
    refine ⟨coords₂, hmem₂, i % (n / numShards mesh axes) :: l, cons_mem_indices.mpr ⟨Nat.mod_lt i hpos, hl⟩, ?_⟩
    rw [globalIndex_cons, hindex, Nat.div_add_mod', globalIndex_congr fun a ha =>
      hrest₂ a fun hin => hdisjoint hin ha]

theorem exists_assembles (hok : ShardingOk mesh sharding) (hmesh : 0 < mesh.prod)
    (hdivides : Divides mesh sharding shape) {x : Tensor (Nat → α)}
    (hx : x.shape = localShape mesh sharding shape) (hdevice : device < mesh.prod) (l : List Nat) :
    ∃ y, Assembles mesh sharding x y ∧ y.shape = shape ∧ (l ∈ indices x.shape →
      y.get (globalIndex mesh sharding shape (unravel mesh device) l) = x.get l device) := by
  classical
  have hcover : ∀ idx ∈ indices shape, ∃ p : Nat × List Nat, p.1 < mesh.prod ∧ p.2 ∈ indices x.shape ∧
        globalIndex mesh sharding shape (unravel mesh p.1) p.2 = idx := by
    intro idx hidx
    obtain ⟨coords, hcoords, l, hl, heq⟩ :=
      exists_globalIndex hok hdivides (unravel_mem_indices hmesh) hidx
    exact ⟨(ravel mesh coords, l), ravel_lt hcoords, hx ▸ hl, by rw [unravel_ravel hcoords, heq]⟩
  choose! owner howner using hcover
  let place := globalIndex mesh sharding shape (unravel mesh device) l
  let y : Tensor α := ⟨shape, fun idx =>
    if idx = place ∧ l ∈ indices x.shape then x.get l device else x.get (owner idx).2 (owner idx).1⟩
  refine ⟨y, ⟨hdivides, hx, fun idx hidx => ?_⟩, rfl, fun hl => if_pos ⟨rfl, hl⟩⟩
  by_cases hplace : idx = place ∧ l ∈ indices x.shape
  · exact ⟨device, hdevice, l, hplace.2, hplace.1.symm, if_pos hplace⟩
  · obtain ⟨hlt, hmem, heq⟩ := howner idx hidx
    exact ⟨_, hlt, _, hmem, heq, if_neg hplace⟩

end

end Tensor
