import EnzymeJax.Communication.Lowering
import EnzymeJax.Library.Spmd

/-!
# Manual computations

The lowerings pad the dimensions they do not act on to multiples of their numbers of devices, run a
local program on every device, and slice the padding off.
-/

namespace EnzymeJax

open Tensor Option
open List hiding allSome

variable {α : Type*}

/-- An `sdy.manual_computation` whose operand and result have one sharding. -/
def ManualComputation (mesh : Mesh) (sharding : Sharding)
    (body : Tensor (Nat → α) → Option (Tensor (Nat → α))) (x y : Tensor α) : Prop :=
  Divides mesh sharding x.shape ∧
    ∃ locals, body (shard mesh sharding x) = some locals ∧ Assembles mesh sharding locals y

/-- One with two operands. -/
def ManualComputation₂ (mesh : Mesh) (sharding : Sharding)
    (body : Tensor (Nat → α) → Tensor (Nat → α) → Option (Tensor (Nat → α))) (x₀ x₁ y : Tensor α) :
    Prop :=
  Divides mesh sharding x₀.shape ∧ Divides mesh sharding x₁.shape ∧
    ∃ locals, body (shard mesh sharding x₀) (shard mesh sharding x₁) = some locals ∧ Assembles mesh sharding locals y

/-- A program computes `z`, from whichever devices the elements are taken. -/
def Exact (computes : Tensor α → Prop) (z : Tensor α) : Prop :=
  (∃ y, computes y) ∧ ∀ y, computes y → Same y z

variable {z x y : Tensor α} {locals : Tensor (Nat → α)}

theorem exact_congr {computes computes' : Tensor α → Prop} (h : ∀ y, computes y ↔ computes' y) :
    Exact computes z ↔ Exact computes' z := by
  obtain rfl : computes = computes' := funext fun y => propext (h y)
  rfl

theorem manualComputation_iff {mesh : Mesh} {sharding : Sharding}
    {body : Tensor (Nat → α) → Option (Tensor (Nat → α))} (hdivides : Divides mesh sharding x.shape)
    (hbody : body (shard mesh sharding x) = some locals) :
    ManualComputation mesh sharding body x y ↔ Assembles mesh sharding locals y := by
  constructor
  · intro ⟨_, locals', hbody', hassembles⟩
    cases hbody.symm.trans hbody'
    exact hassembles
  · intro hassembles
    exact ⟨hdivides, locals, hbody, hassembles⟩

theorem manualComputation₂_iff {mesh : Mesh} {sharding : Sharding}
    {body : Tensor (Nat → α) → Tensor (Nat → α) → Option (Tensor (Nat → α))} {x₀ x₁ : Tensor α}
    (hdivides₀ : Divides mesh sharding x₀.shape) (hdivides₁ : Divides mesh sharding x₁.shape)
    (hbody : body (shard mesh sharding x₀) (shard mesh sharding x₁) = some locals) :
    ManualComputation₂ mesh sharding body x₀ x₁ y ↔ Assembles mesh sharding locals y := by
  constructor
  · intro ⟨_, _, locals', hbody', hassembles⟩
    cases hbody.symm.trans hbody'
    exact hassembles
  · intro hassembles
    exact ⟨hdivides₀, hdivides₁, locals, hbody, hassembles⟩

def highPads (mesh : Mesh) (sharding : Sharding) (dim : Nat) (shape : List Nat) : List Nat :=
  (List.zip sharding shape).mapIdx fun i p =>
    let numDevices := numShards mesh p.1
    if i = dim ∨ p.2 % numDevices = 0 then 0 else numDevices - p.2 % numDevices

def paddedShape (mesh : Mesh) (sharding : Sharding) (dim : Nat) (shape : List Nat) : List Nat :=
  List.zipWith (· + ·) shape (highPads mesh sharding dim shape)

def padOthers [Zero α] (mesh : Mesh) (sharding : Sharding) (dim : Nat) (x : Tensor α) :
    Option (Tensor α) :=
  let highPads := highPads mesh sharding dim x.shape
  if highPads.any (· ≠ 0) then pad (highPads.map fun (high : Nat) => ⟨0, high, 0⟩) 0 x else some x

/-- The result of the manual computation without its padding; `leftPadding` is in front along
`dim`. -/
def removePadding (dim leftPadding : Nat) (shape : List Nat) (x : Tensor α) : Option (Tensor α) :=
  if x.shape = shape then some x
  else slice (sliceAlong dim leftPadding (coord shape dim + leftPadding : Nat) shape) x

section

variable {mesh : Mesh} {sharding : Sharding} {dim : Nat} {shape : List Nat}

theorem highPads_length (h : sharding.length = shape.length) :
    (highPads mesh sharding dim shape).length = shape.length := by
  simp [highPads, h]

variable {i leftPadding : Nat} {shape' idx highs : List Nat}

theorem highPads_getElem (hi : i < (highPads mesh sharding dim shape).length) (hs : i < sharding.length)
    (hn : i < shape.length) : (highPads mesh sharding dim shape)[i] =
      if i = dim ∨ shape[i] % numShards mesh sharding[i] = 0 then 0
      else numShards mesh sharding[i] - shape[i] % numShards mesh sharding[i] := by
  simp [highPads]

section

variable (h : sharding.length = shape.length)

include h

theorem paddedShape_length :
    (paddedShape mesh sharding dim shape).length = shape.length := by
  simp [paddedShape, highPads_length h]

theorem coord_paddedShape (hd : dim < shape.length) :
    coord (paddedShape mesh sharding dim shape) dim = coord shape dim := by
  have hd' : dim < (paddedShape mesh sharding dim shape).length := by rwa [paddedShape_length h]
  rw [coord, coord, getD_eq_getElem _ _ hd, getD_eq_getElem _ _ hd']
  simp only [paddedShape, getElem_zipWith]
  rw [highPads_getElem _ (h ▸ hd) hd, if_pos (.inl rfl), add_zero]

theorem le_paddedShape :
    Forall₂ (· ≤ ·) shape (paddedShape mesh sharding dim shape) := by
  rw [forall₂_iff_get]
  refine ⟨(paddedShape_length h).symm, fun i hi hi' => ?_⟩
  simp only [get_eq_getElem, paddedShape, getElem_zipWith]
  exact le_self_add

end

theorem forall₂_le_set {shape : List Nat} {d j : Nat} (h : Forall₂ (· ≤ ·) shape shape') (hij : i ≤ j) :
    Forall₂ (· ≤ ·) (shape.set d i) (shape'.set d j) := by
  induction h generalizing d with
  | nil => exact .nil
  | cons hle hrest ih =>
    cases d with
    | zero => exact .cons hij hrest
    | succ d => exact .cons hle ih

theorem paddedShape_pos (hrank : sharding.length = shape.length) (hpos : ∀ n ∈ shape, 0 < n) :
    ∀ n ∈ paddedShape mesh sharding dim shape, 0 < n := by
  intro n hn
  obtain ⟨i, hi, rfl⟩ := getElem_of_mem hn
  have hle : Forall₂ (· ≤ ·) shape (paddedShape mesh sharding dim shape) := le_paddedShape hrank
  have hle := forall₂_iff_get.mp hle
  have hi' : i < shape.length := hle.1 ▸ hi
  exact lt_of_lt_of_le (hpos _ (getElem_mem hi')) (hle.2 i hi' hi)

theorem divides_paddedShape (h : sharding.length = shape.length) (hpos : ∀ axes ∈ sharding, 0 < numShards mesh axes)
    (hdim : ∀ axes ∈ sharding[dim]?, numShards mesh axes ∣ coord shape dim) :
    Divides mesh sharding (paddedShape mesh sharding dim shape) := by
  rw [Divides, forall₂_iff_get]
  refine ⟨by rw [paddedShape_length h, h], fun i hi hi' => ?_⟩
  have hn : i < shape.length := by rwa [paddedShape_length h] at hi'
  have hpos := hpos _ (getElem_mem hi)
  simp only [get_eq_getElem, paddedShape, getElem_zipWith]
  rw [highPads_getElem _ hi hn]
  by_cases hcase : i = dim ∨ shape[i] % numShards mesh sharding[i] = 0
  · rw [if_pos hcase, add_zero]
    rcases hcase with rfl | hmod
    · have hdvd := hdim sharding[i] (getElem?_eq_getElem hi)
      rwa [coord, getD_eq_getElem _ _ hn] at hdvd
    · exact Nat.dvd_of_mod_eq_zero hmod
  · rw [if_neg hcase]
    have hmod := Nat.div_add_mod shape[i] (numShards mesh sharding[i])
    have hlt := Nat.mod_lt shape[i] hpos
    refine ⟨shape[i] / numShards mesh sharding[i] + 1, ?_⟩
    rw [mul_add, mul_one]
    omega

theorem indices_mono (h : Forall₂ (· ≤ ·) shape shape') (hidx : idx ∈ indices shape) : idx ∈ indices shape' := by
  induction h generalizing idx with
  | nil => exact hidx
  | cons hle _ ih =>
    obtain ⟨i, hi, rest, hrest, rfl⟩ := mem_indices_cons.mp hidx
    exact cons_mem_indices.mpr ⟨lt_of_lt_of_le hi hle, ih hrest⟩

theorem pad_high_source (h : highs.length = shape.length) (hidx : idx ∈ indices shape) :
    zipWith3 (fun (d : PadDim) n (q : Nat) => d.source n q)
      (highs.map fun (high : Nat) => ⟨0, high, 0⟩) shape idx = idx.map some := by
  induction shape generalizing highs idx with
  | nil =>
    obtain rfl := length_eq_zero_iff.mp h
    obtain rfl := mem_indices_nil.mp hidx
    rfl
  | cons n shape ih =>
    obtain ⟨high, highs, rfl⟩ := exists_cons_of_length_eq_add_one h
    obtain ⟨i, hi, rest, hrest, rfl⟩ := mem_indices_cons.mp hidx
    have hhead : PadDim.source ⟨0, high, 0⟩ n i = some i := by
      simp [PadDim.source, hi]
    rw [map_cons, zipWith3, hhead, map_cons, ih (add_right_cancel h) hrest]

theorem pad_high [Zero α] (h : highs.length = x.shape.length) :
    ∃ y, pad (highs.map fun (high : Nat) => ⟨0, high, 0⟩) 0 x = some y ∧ y.shape = zipWith (· + ·) x.shape highs ∧
      ∀ idx ∈ indices x.shape, y.get idx = x.get idx := by
  have hsize : ∀ high n : Nat, PadDim.size ⟨0, high, 0⟩ n = (n + high : Nat) := by
    intro high n
    simp [PadDim.size, PadDim.dilated]
  have hok : Forall₂ PadDim.Ok (highs.map fun (high : Nat) => ⟨0, high, 0⟩) x.shape := by
    rw [forall₂_iff_get]
    refine ⟨by rw [length_map, h], fun i hi hi' => ?_⟩
    rw [get_eq_getElem, getElem_map, PadDim.Ok, hsize]
    exact ⟨Int.le_refl 0, Int.natCast_nonneg _⟩
  refine ⟨_, if_pos hok, ?_, fun idx hidx => ?_⟩
  · refine ext_getElem (by simp [h]) fun i hi hi' => ?_
    simp only [getElem_zipWith, getElem_map, hsize, Int.toNat_natCast]
  · change ((allSome (zipWith3 _ _ _ idx)).map x.get).getD 0 = _
    rw [pad_high_source h hidx, allSome_map_some]
    rfl

theorem pad_high_source_none (h : highs.length = shape.length) (hlen : idx.length = shape.length)
    (hidx : idx ∉ indices shape) : allSome (zipWith3 (fun (d : PadDim) n (q : Nat) => d.source n q)
      (highs.map fun (high : Nat) => ⟨0, high, 0⟩) shape idx) = none := by
  induction shape generalizing highs idx with
  | nil =>
    obtain rfl := length_eq_zero_iff.mp hlen
    exact absurd (mem_indices_nil.mpr rfl) hidx
  | cons n shape ih =>
    obtain ⟨high, highs, rfl⟩ := exists_cons_of_length_eq_add_one h
    obtain ⟨i, idx, rfl⟩ := exists_cons_of_length_eq_add_one hlen
    rw [map_cons, zipWith3]
    by_cases hi : i < n
    · have hhead : PadDim.source ⟨0, high, 0⟩ n i = some i := by
        simp [PadDim.source, hi]
      rw [hhead, allSome, ih (add_right_cancel h) (add_right_cancel hlen)
        fun hrest => hidx (cons_mem_indices.mpr ⟨hi, hrest⟩), map_none]
    · have hhead : PadDim.source ⟨0, high, 0⟩ n i = none := by
        simp [PadDim.source, hi]
      rw [hhead, allSome]

theorem pad_high_outside [Zero α] (h : highs.length = x.shape.length)
    (hy : pad (highs.map fun (high : Nat) => ⟨0, high, 0⟩) 0 x = some y) (hlen : idx.length = x.shape.length)
    (hidx : idx ∉ indices x.shape) : y.get idx = 0 := by
  rw [pad] at hy
  split at hy
  · cases hy
    change ((allSome (zipWith3 _ _ _ idx)).map x.get).getD 0 = _
    rw [pad_high_source_none h hlen hidx]
    rfl
  · cases hy

theorem padOthers_eq [Zero α] (mesh : Mesh) (dim : Nat) (h : sharding.length = x.shape.length) :
    ∃ y, padOthers mesh sharding dim x = some y ∧ y.shape = paddedShape mesh sharding dim x.shape ∧
      ∀ idx ∈ indices x.shape, y.get idx = x.get idx := by
  have hlen : (highPads mesh sharding dim x.shape).length = x.shape.length := highPads_length h
  rw [padOthers]
  split
  · exact pad_high hlen
  · rename_i hzero
    refine ⟨x, rfl, ?_, fun _ _ => rfl⟩
    refine ext_getElem (paddedShape_length h).symm fun i hi hi' => ?_
    have hmem := getElem_mem (hlen.symm ▸ hi : i < _)
    simp only [List.any_eq_true, not_exists, not_and, decide_eq_true_eq, not_not] at hzero
    simp only [paddedShape, getElem_zipWith, hzero _ hmem, add_zero]

theorem removePadding_eq (hd : dim < shape.length)
    (hle : Forall₂ (· ≤ ·) (shape.set dim (leftPadding + coord shape dim)) x.shape) :
    ∃ y, removePadding dim leftPadding shape x = some y ∧ y.shape = shape ∧
      ∀ idx ∈ indices shape, y.get idx = x.get (idx.set dim (leftPadding + coord idx dim)) := by
  have hget := forall₂_iff_get.mp hle
  rw [removePadding]
  split
  · rename_i heq
    refine ⟨x, rfl, heq, fun idx hidx => ?_⟩
    have hdim := hget.2 dim (by rwa [length_set]) (heq ▸ hd)
    simp only [get_eq_getElem, getElem_set_self, heq, coord, getD_eq_getElem _ _ hd] at hdim
    obtain rfl : leftPadding = 0 := by omega
    rw [zero_add, set_coord_self (by rwa [length_of_mem_indices hidx])]
  · have hok : Forall₂ SliceDim.Ok
        (sliceAlong dim leftPadding (coord shape dim + leftPadding : Nat) shape) x.shape := by
      rw [forall₂_iff_get]
      refine ⟨by simpa [sliceAlong] using hget.1, fun i hi hi' => ?_⟩
      have hlt : i < shape.length := by simpa [sliceAlong] using hi
      have hi := hget.2 i (by rwa [length_set]) hi'
      simp only [get_eq_getElem, getElem_set] at hi ⊢
      rw [sliceAlong_getElem _ hlt]
      by_cases heq : i = dim
      · rw [if_pos heq.symm] at hi
        rw [if_pos heq]
        simp only [SliceDim.Ok]
        omega
      · rw [if_neg (Ne.symm heq)] at hi
        rw [if_neg heq]
        simp only [SliceDim.Ok]
        omega
    refine ⟨_, if_pos hok, ?_, fun idx hidx => ?_⟩
    · rw [sliceAlong_size, Nat.cast_add, Int.add_sub_cancel, Int.toNat_natCast, set_coord_self hd]
    · refine congrArg x.get ?_
      rw [sliceAlong_source (length_of_mem_indices hidx) (Int.natCast_nonneg _), Int.toNat_natCast]

theorem shardedAlong_paddedShape {axis : Nat} (hok : ShardingOk mesh sharding)
    (hmesh : ∀ n ∈ mesh, 0 < n) (hrank : sharding.length = shape.length)
    (haxis : sharding[dim]? = some [axis]) (hdvd : coord mesh axis ∣ coord shape dim) :
    ShardedAlong mesh sharding (paddedShape mesh sharding dim shape) dim axis
      (coord shape dim / coord mesh axis) := by
  have hdim : dim < shape.length := hrank ▸ (List.getElem?_eq_some_iff.mp haxis).1
  have hcoord : ∀ a ∈ sharding.flatten, 0 < coord mesh a := by
    intro a ha
    rw [coord, getD_eq_getElem _ _ (hok.2 a ha)]
    exact hmesh _ (getElem_mem _)
  have hflatten : ∀ axes ∈ sharding, ∀ a ∈ axes, a ∈ sharding.flatten :=
    fun axes haxes a ha => mem_flatten.mpr ⟨axes, haxes, ha⟩
  refine ⟨hok, divides_paddedShape hrank (fun axes haxes => ?_) ?_, haxis, ?_, ?_⟩
  · refine prod_pos fun m hm => ?_
    obtain ⟨a, ha, rfl⟩ := mem_map.mp hm
    exact hcoord a (hflatten axes haxes a ha)
  · intro axes haxes
    rw [haxis] at haxes
    cases haxes
    rwa [numShards_one]
  · exact hcoord axis (hflatten _ (mem_of_getElem? haxis) axis mem_cons_self)
  · rw [coord_paddedShape hrank hdim, Nat.mul_div_cancel' hdvd]

/-- Dimension `dim` is cut into equal shards along one axis of the mesh. -/
structure ShardedDim (mesh : Mesh) (sharding : Sharding) (shape : List Nat) (dim axis : Nat) :
    Prop where
  ok : ShardingOk mesh sharding
  mesh_pos : ∀ n ∈ mesh, 0 < n
  rank : sharding.length = shape.length
  axis_eq : sharding[dim]? = some [axis]
  divides : coord mesh axis ∣ coord shape dim

/-- The device has lines of the tensor, not of the padding of the other dimensions alone. -/
def HasPart (mesh : Mesh) (sharding : Sharding) (dim : Nat) (shape : List Nat) (device : Nat) :
    Prop :=
  ∃ idx ∈ indices ((localShape mesh sharding (paddedShape mesh sharding dim shape)).set dim 1),
    lineAt mesh sharding (paddedShape mesh sharding dim shape) dim device idx 0 ∈
      indices (shape.set dim 1)

instance (mesh : Mesh) (sharding : Sharding) (dim : Nat) (shape : List Nat) (device : Nat) :
    Decidable (HasPart mesh sharding dim shape device) :=
  inferInstanceAs (Decidable (∃ idx ∈ _, _))

namespace ShardedDim

variable {axis : Nat} (h : ShardedDim mesh sharding shape dim axis)

include h

theorem dim_lt : dim < shape.length := h.rank ▸ (List.getElem?_eq_some_iff.mp h.axis_eq).1

theorem numShards_eq : numShards mesh (sharding.getD dim []) = coord mesh axis := by
  rw [getD_eq_getElem?_getD, h.axis_eq, getD_some, numShards_one]

theorem padded : ShardedAlong mesh sharding (paddedShape mesh sharding dim shape) dim axis
    (coord shape dim / coord mesh axis) :=
  shardedAlong_paddedShape h.ok h.mesh_pos h.rank h.axis_eq h.divides

theorem extent_eq : coord mesh axis * (coord shape dim / coord mesh axis) = coord shape dim :=
  Nat.mul_div_cancel' h.divides

end ShardedDim

theorem le_of_removePadding (hd : dim < shape.length) (h : removePadding dim leftPadding shape x = some y) :
    coord shape dim ≤ coord x.shape dim := by
  rw [removePadding] at h
  split at h
  · rename_i heq
    rw [heq]
  · rw [slice] at h
    split at h
    · rename_i hok
      have hget := forall₂_iff_get.mp hok
      have hlt : dim < (sliceAlong dim leftPadding (coord shape dim + leftPadding : Nat) shape).length := by
        simpa [sliceAlong] using hd
      have hd' : dim < x.shape.length := hget.1 ▸ hlt
      have hlimit := (hget.2 dim hlt hd').2.2.1
      rw [get_eq_getElem, get_eq_getElem, sliceAlong_getElem _ hd, if_pos rfl] at hlimit
      have hcoord : coord x.shape dim = x.shape[dim] := by
        rw [coord, getD_eq_getElem _ _ hd']
      rw [hcoord]
      have hlimit : ((coord shape dim + leftPadding : Nat) : Int) ≤ x.shape[dim] := hlimit
      omega
    · cases h

theorem padded_mem (hd : dim < shape.length)
    (hle : Forall₂ (· ≤ ·) (shape.set dim (leftPadding + coord shape dim)) shape')
    (hidx : idx ∈ indices shape) : idx.set dim (leftPadding + coord idx dim) ∈ indices shape' := by
  have hlt := coord_lt hidx hd
  refine indices_mono hle (set_mem_indices (n := coord shape dim) ?_ (by omega))
  rwa [set_coord_self hd]

theorem get_lineAt {n j device : Nat} {padded : List Nat} {f : List Nat → Nat → α} (hz : Along dim shape n f z)
    (hvisible : lineAt mesh sharding padded dim device idx 0 ∈ indices (shape.set dim 1)) (hj : j < n) :
    z.get (lineAt mesh sharding padded dim device idx j) = f (lineAt mesh sharding padded dim device idx 0) j := by
  rw [← hz.get_eq _ hvisible j hj, set_lineAt]

/-- The final slice of what is assembled from the lines of the local results. -/
def Assembled (mesh : Mesh) (sharding : Sharding) (dim leftPadding : Nat) (shape padded : List Nat)
    (locals : Tensor (Nat → α)) (y : Tensor α) : Prop :=
  ∃ result, Assembles mesh sharding locals result ∧ result.shape = padded ∧
    removePadding dim leftPadding shape result = some y

theorem exact_iff_lines {axis size : Nat} {padded ls : List Nat} {f : List Nat → Nat → Nat → α}
    (h : ShardedAlong mesh sharding padded dim axis size) (hmesh : 0 < mesh.prod)
    (hlocal : localShape mesh sharding padded = ls.set dim size) (hlocals : Along dim ls size f locals)
    (hz : z.shape = shape) (hle : Forall₂ (· ≤ ·) (shape.set dim (leftPadding + coord shape dim)) padded) :
    Exact (Assembled mesh sharding dim leftPadding shape padded locals) z ↔
      ∀ device < mesh.prod, ∀ idx ∈ indices (ls.set dim 1),
        lineAt mesh sharding padded dim device idx 0 ∈ indices (shape.set dim 1) →
          ∀ k < size, ∀ j < coord shape dim, devicePos mesh axis device * size + k = leftPadding + j →
              f idx k device = z.get (lineAt mesh sharding padded dim device idx j) := by
  have hrank : shape.length = padded.length := by rw [← hle.length_eq, length_set]
  have hd : dim < shape.length := hrank ▸ h.dim_lt
  have hlocalsShape : locals.shape = localShape mesh sharding padded :=
    hlocals.shape_eq.trans hlocal.symm
  have hlsLength : ls.length = padded.length := by
    rw [← h.localShape_length, hlocal, length_set]
  have hidxLength : ∀ idx ∈ indices (ls.set dim 1), idx.length = padded.length := fun idx hidx => by
    rw [length_of_mem_indices hidx, length_set, hlsLength]
  constructor
  · intro ⟨_, hexact⟩ device hdev idx hidx hvisible k hk j hj hposition
    obtain ⟨result, hassembles, hshape, hget⟩ :=
      exists_assembles h.ok hmesh h.divides hlocalsShape hdev (idx.set dim k)
    have hmem : idx.set dim k ∈ indices locals.shape := hlocals.shape_eq ▸ set_mem_indices hidx hk
    have hget := hget hmem
    rw [h.globalIndex_line (hidxLength idx hidx), hlocals.get_eq idx hidx k hk, hposition] at hget
    obtain ⟨y, hy, hyShape, hyGet⟩ := removePadding_eq hd (hshape ▸ hle)
    have hsame := hexact y ⟨result, hassembles, hshape, hy⟩
    have hplace : lineAt mesh sharding padded dim device idx j ∈ indices shape := by
      have hset := set_mem_indices hvisible hj
      rwa [set_lineAt, set_coord_self hd] at hset
    rw [← hsame.get_eq _ (hyShape ▸ hplace), hyGet _ hplace, set_lineAt, h.coord_lineAt (hidxLength idx hidx), hget]
  · intro hlines
    refine ⟨?_, fun y hy => ?_⟩
    · obtain ⟨result, hassembles, hshape, -⟩ :=
        exists_assembles h.ok hmesh h.divides hlocalsShape hmesh []
      obtain ⟨y, hy, -, -⟩ := removePadding_eq hd (hshape ▸ hle)
      exact ⟨y, result, hassembles, hshape, hy⟩
    · obtain ⟨result, hassembles, hshape, hremove⟩ := hy
      subst hshape
      obtain ⟨y', hy', hyShape, hyGet⟩ := removePadding_eq hd hle
      cases hremove.symm.trans hy'
      refine ⟨hyShape.trans hz.symm, fun idx hidx => ?_⟩
      rw [hyShape] at hidx
      obtain ⟨device, hdev, l, hl, hplace, hget⟩ :=
        hassembles.get_eq _ (padded_mem hd hle hidx)
      rw [hlocals.shape_eq] at hl
      have hidxDim : dim < idx.length := by rwa [length_of_mem_indices hidx]
      obtain ⟨hbase, hk, heq⟩ := exists_line (hlsLength ▸ h.dim_lt) hl
      rw [heq, h.globalIndex_line (hidxLength _ hbase)] at hplace
      have hposition := congrArg (coord · dim) hplace
      have hother := congrArg (set · dim (coord idx dim)) hplace
      simp only [h.coord_lineAt (hidxLength _ hbase), coord_set_self hidxDim] at hposition
      simp only [set_lineAt, set_set, set_coord_self hidxDim] at hother
      have hvisible : lineAt mesh sharding result.shape dim device (l.set dim 0) 0 ∈
          indices (shape.set dim 1) := by
        have hset := set_mem_indices (m := 1) (k := 0) ((set_coord_self hd).symm ▸ hidx) one_pos
        rwa [← hother, set_lineAt] at hset
      rw [hyGet idx hidx, hget, heq, hlocals.get_eq _ hbase _ hk,
        hlines device hdev _ hbase hvisible _ hk _ (coord_lt hidx hd) hposition, hother]

end

end EnzymeJax
