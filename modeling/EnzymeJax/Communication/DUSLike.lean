import EnzymeJax.Communication.Select

/-!
# Updates of sharded tensors

`DUSToPadManualCompComm` lets every device select between its shards of the padded operand and update. The select
looks at sharded dimensions only: what an update leaves of an unsharded dimension is lost.
-/

namespace EnzymeJax

open Tensor List Option

variable {α : Type*}

section

variable {mesh : Mesh} {sharding : Sharding} {padded shape : List Nat} {d a device : Nat}

theorem coord_zipWith {f : Nat → Nat → Nat} {l l' : List Nat} {i : Nat} (hi : i < l.length)
    (hi' : i < l'.length) : coord (zipWith f l l') i = f (coord l i) (coord l' i) := by
  have hzip : i < (zipWith f l l').length := by
    rw [length_zipWith]
    exact Nat.lt_min.mpr ⟨hi, hi'⟩
  rw [coord, coord, coord, getD_eq_getElem _ _ hi, getD_eq_getElem _ _ hi', getD_eq_getElem _ _ hzip, getElem_zipWith]

theorem coord_localShape (haxis : sharding[d]? = some [a]) (hd : d < padded.length) :
    coord (localShape mesh sharding padded) d = coord padded d / coord mesh a := by
  obtain ⟨hlt, hget⟩ := List.getElem?_eq_some_iff.mp haxis
  have hzip : d < (localShape mesh sharding padded).length := by
    rw [localShape, length_zipWith]
    exact Nat.lt_min.mpr ⟨hlt, hd⟩
  rw [coord, coord, getD_eq_getElem _ _ hzip, getD_eq_getElem _ _ hd]
  simp only [localShape, getElem_zipWith, hget, numShards_one]

theorem coord_globalIndex {coords idx : List Nat} (haxis : sharding[d]? = some [a])
    (hd : d < padded.length) (hidx : idx.length = padded.length) :
    coord (globalIndex mesh sharding padded coords idx) d =
      coord coords a * coord (localShape mesh sharding padded) d + coord idx d := by
  rw [coord_localShape haxis hd]
  induction sharding generalizing padded idx d with
  | nil => cases haxis
  | cons axes sharding ih =>
    obtain ⟨n, padded, rfl⟩ := exists_cons_of_length_pos (pos_of_gt hd)
    obtain ⟨i, idx, rfl⟩ := exists_cons_of_length_eq_add_one hidx
    rw [globalIndex_cons]
    cases d with
    | zero =>
      cases haxis
      rw [shardIndex_one, numShards_one]
      rfl
    | succ d => exact ih haxis (Nat.lt_of_succ_lt_succ hd) (add_right_cancel hidx)

theorem exact_iff_get {f : List Nat → α} {locals : Tensor (Nat → α)} {z : Tensor α} (hok : ShardingOk mesh sharding)
    (hmesh : ∀ n ∈ mesh, 0 < n) (hdivides : Divides mesh sharding padded)
    (hlocals : locals.shape = localShape mesh sharding padded)
    (hget : ∀ idx ∈ indices locals.shape, ∀ device < mesh.prod,
      locals.get idx device = f (globalIndex mesh sharding padded (unravel mesh device) idx)) (hz : z.shape = shape)
    (hd : 0 < shape.length) (hle : Forall₂ (· ≤ ·) shape padded) :
    Exact (Assembled mesh sharding 0 0 shape padded locals) z ↔ ∀ q ∈ indices shape, f q = z.get q := by
  have hpos := prod_pos hmesh
  have hset : ∀ q : List Nat, q.length = shape.length → q.set 0 (0 + coord q 0) = q := by
    intro q hq
    rw [zero_add, set_coord_self (hq ▸ hd)]
  have hle' : Forall₂ (· ≤ ·) (shape.set 0 (0 + coord shape 0)) padded := by rwa [hset _ rfl]
  constructor
  · intro ⟨_, hexact⟩ q hq
    obtain ⟨coords, hcoords, l, hl, heq⟩ := exists_globalIndex hok hdivides
      (zeros_mem_indices hmesh) (indices_mono hle hq)
    have hdev := ravel_lt hcoords
    obtain ⟨result, hassembles, hshape, hres⟩ :=
      exists_assembles hok hpos hdivides hlocals hdev l
    have hres := hres (hlocals ▸ hl)
    rw [hget l (hlocals ▸ hl) _ hdev, unravel_ravel hcoords, heq] at hres
    obtain ⟨y, hy, hyShape, hyGet⟩ := removePadding_eq hd (hshape ▸ hle')
    have hsame := hexact y ⟨result, hassembles, hshape, hy⟩
    rw [← hsame.get_eq q (hyShape ▸ hq), hyGet q hq, hset q (length_of_mem_indices hq), hres]
  · intro hall
    obtain ⟨result, hassembles, hshape, -⟩ := exists_assembles hok hpos hdivides hlocals hpos []
    obtain ⟨y, hy, -, -⟩ := removePadding_eq hd (hshape ▸ hle')
    refine ⟨⟨y, result, hassembles, hshape, hy⟩, ?_⟩
    intro y' ⟨result, hassembles, hshape, hremove⟩
    obtain ⟨y, hy, hyShape, hyGet⟩ := removePadding_eq hd (hshape ▸ hle')
    cases hremove.symm.trans hy
    refine ⟨hyShape.trans hz.symm, fun q hq => ?_⟩
    rw [hyShape] at hq
    obtain ⟨device, hdev, l, hl, hplace, hres⟩ :=
      hassembles.get_eq q (hshape ▸ indices_mono hle hq)
    rw [hyGet q hq, hset q (length_of_mem_indices hq), hres, hget l hl device hdev, ← hshape, hplace, hall q hq]

end

/-! ### The select on the whole tensors -/

/-- The device numbers count the devices the way that the select decodes them. -/
def Decodes (mesh : Mesh) (sharding : Sharding) (padded : List Nat) : Prop :=
  ∀ device < mesh.prod, ∀ d < sharding.length, coord padded d ≠ coord (localShape mesh sharding padded) d →
      ((Select.multiDimIdxs padded (localShape mesh sharding padded) (sharding.map (numShards mesh))
        (partitionId device)).getD d 0).toNat =
      devicePos mesh ((sharding.getD d []).headD 0) device

instance (mesh : Mesh) (sharding : Sharding) (padded : List Nat) :
    Decidable (Decodes mesh sharding padded) :=
  inferInstanceAs (Decidable (∀ device < _, _))

/-- A select of shards of two tensors of shape `padded`. -/
structure SelectOk (mesh : Mesh) (sharding : Sharding) (s : Select) : Prop where
  ok : ShardingOk mesh sharding
  mesh_pos : ∀ n ∈ mesh, 0 < n
  devices : mesh.prod < 2 ^ 31
  one : ∀ axes ∈ sharding, axes.length = 1
  divides : Divides mesh sharding s.globalShape
  local_eq : s.localShape = localShape mesh sharding s.globalShape
  numDevices_eq : s.numDevices = sharding.map (numShards mesh)
  lowPads_length : s.lowPads.length = s.globalShape.length
  decodes : Decodes mesh sharding s.globalShape
  dim_lt : ∀ d ∈ s.updatedShardedDims, d < s.globalShape.length
  global_pos : ∀ d ∈ s.updatedShardedDims, 0 < coord s.globalShape d
  sharded : ∀ d ∈ s.updatedShardedDims, coord s.globalShape d ≠ coord s.localShape d
  low_le : ∀ d ∈ s.updatedShardedDims, coord s.lowPads d ≤ coord s.globalShape d
  start_le : ∀ d ∈ s.updatedShardedDims, coord s.highPads d ≠ 0 → s.startIdx d ≤ coord s.globalShape d
  padded : ∀ d ∈ s.updatedShardedDims, coord s.lowPads d ≠ 0 ∨ coord s.highPads d ≠ 0
  small : ∀ d ∈ s.updatedShardedDims, coord s.localShape d ≤ 2 ^ 32

namespace SelectOk

variable {mesh : Mesh} {sharding : Sharding} {s : Select} (h : SelectOk mesh sharding s)

include h

theorem axis_eq {d : Nat} (hd : d < s.globalShape.length) :
    sharding[d]? = some [(sharding.getD d []).headD 0] := by
  have hlt : d < sharding.length := by rwa [h.divides.length_eq]
  obtain ⟨a, ha⟩ := length_eq_one_iff.mp (h.one _ (getElem_mem hlt))
  rw [getElem?_eq_getElem hlt, getD_eq_getElem _ _ hlt, ha]
  rfl

theorem dimOk {d : Nat} (hd : d ∈ s.updatedShardedDims) :
    s.DimOk d (coord mesh ((sharding.getD d []).headD 0)) mesh.prod
      (devicePos mesh ((sharding.getD d []).headD 0)) := by
  have haxis := h.axis_eq (h.dim_lt d hd)
  obtain ⟨hlt, hget⟩ := List.getElem?_eq_some_iff.mp haxis
  generalize (sharding.getD d []).headD 0 = a at *
  have ha : a < mesh.length := h.ok.2 a
    (mem_flatten.mpr ⟨_, mem_of_getElem? haxis, mem_cons_self⟩)
  have hcoord : coord mesh a = mesh[a] := by rw [coord, getD_eq_getElem _ _ ha]
  have hn : 0 < coord mesh a := hcoord ▸ h.mesh_pos _ (getElem_mem ha)
  have hdvd : coord mesh a ∣ coord s.globalShape d := by
    have hdvd := (forall₂_iff_get.mp h.divides).2 d hlt (h.dim_lt d hd)
    rw [get_eq_getElem, get_eq_getElem, hget, numShards_one] at hdvd
    have heq : coord s.globalShape d = s.globalShape.get ⟨d, h.dim_lt d hd⟩ := by
      rw [coord, getD_eq_getElem _ _ (h.dim_lt d hd), get_eq_getElem]
    exact heq ▸ hdvd
  have hsize : coord s.localShape d = coord s.globalShape d / coord mesh a := by
    rw [h.local_eq, coord_localShape haxis (h.dim_lt d hd)]
  have hglobal : coord s.globalShape d = coord mesh a * coord s.localShape d := by
    rw [hsize, Nat.mul_div_cancel' hdvd]
  have hpos := h.global_pos d hd
  refine ⟨?_, h.small d hd, hglobal, ?_, ?_, h.low_le d hd, h.start_le d hd, h.padded d hd, fun device hdev => ?_,
    fun device hdev => devicePos_lt hdev ha⟩
  · rw [hglobal] at hpos
    exact Nat.pos_of_mul_pos_left hpos
  · by_contra hone
    obtain heq : coord mesh a = 1 := by omega
    rw [heq, one_mul] at hglobal
    exact h.sharded d hd hglobal
  · have hle := Nat.le_of_dvd (prod_pos h.mesh_pos) (dvd_prod (getElem_mem ha))
    rw [← hcoord] at hle
    exact hle.trans h.devices.le
  · have hne : coord s.globalShape d ≠ coord (localShape mesh sharding s.globalShape) d :=
      h.local_eq ▸ h.sharded d hd
    have hposition := h.decodes device hdev d hlt hne
    rw [getD_eq_getElem _ _ hlt, hget] at hposition
    rw [Select.position, h.local_eq, h.numDevices_eq]
    exact hposition

theorem locals_eq {y₀ y₁ : Tensor α} (hy₀ : y₀.shape = s.globalShape) (hy₁ : y₁.shape = s.globalShape) :
    ∃ locals, s.multiDimensionalSelect (shard mesh sharding y₀) (shard mesh sharding y₁) = some locals ∧
      locals.shape = localShape mesh sharding s.globalShape ∧
      ∀ idx ∈ indices locals.shape, ∀ device < mesh.prod, locals.get idx device = (fun q =>
          if ∃ d ∈ s.updatedShardedDims, s.InOperand d (coord q d) then y₀.get q else y₁.get q)
          (globalIndex mesh sharding s.globalShape (unravel mesh device) idx) := by
  have hshape₀ : (shard mesh sharding y₀).shape = localShape mesh sharding s.globalShape :=
    congrArg _ hy₀
  have hshape₁ : (shard mesh sharding y₁).shape = localShape mesh sharding s.globalShape :=
    congrArg _ hy₁
  have hlen : (localShape mesh sharding s.globalShape).length = s.globalShape.length := by
    rw [localShape, length_zipWith, h.divides.length_eq, min_self]
  have hpads : s.lowPads.length = (shard mesh sharding y₀).shape.length := by
    rw [hshape₀, hlen, h.lowPads_length]
  by_cases hdims : s.updatedShardedDims = []
  · obtain ⟨locals, hlocals, hsame⟩ := Select.select_unsharded hdims hpads (hshape₁.trans hshape₀.symm)
    have hshape := hsame.shape_eq.trans hshape₁
    refine ⟨locals, hlocals, hshape, fun idx hidx device _ => ?_⟩
    have hnone : ¬∃ d ∈ s.updatedShardedDims, s.InOperand d
        (coord (globalIndex mesh sharding s.globalShape (unravel mesh device) idx) d) := by
      rw [hdims]
      rintro ⟨_, hmem, -⟩
      exact absurd hmem not_mem_nil
    dsimp only
    rw [if_neg hnone, hsame.get_eq idx hidx, shard, hy₁]
  · obtain ⟨locals, hlocals, hshape, hget⟩ := Select.select_eq (fun d hd => h.dimOk hd) hdims hpads
      (hshape₁.trans hshape₀.symm) (fun idx hidx d hd => by
        rw [h.local_eq]
        rw [hshape₀] at hidx
        exact coord_lt hidx (hlen ▸ h.dim_lt d hd))
    refine ⟨locals, hlocals, hshape.trans hshape₀, fun idx hidx device hdev => ?_⟩
    rw [hshape] at hidx
    have hidxLength : idx.length = s.globalShape.length := by
      rw [length_of_mem_indices hidx, hshape₀, hlen]
    rw [hget idx hidx device hdev]
    have hiff : (∃ d ∈ s.updatedShardedDims, s.InOperand d
        (devicePos mesh ((sharding.getD d []).headD 0) device * coord s.localShape d + coord idx d)) ↔
        ∃ d ∈ s.updatedShardedDims, s.InOperand d
          (coord (globalIndex mesh sharding s.globalShape (unravel mesh device) idx) d) := by
      refine exists_congr fun d => and_congr_right fun hd => ?_
      rw [coord_globalIndex (h.axis_eq (h.dim_lt d hd)) (h.dim_lt d hd) hidxLength, ← h.local_eq]
      rfl
    refine (if_congr hiff ?_ ?_)
    · rw [shard, hy₀]
    · rw [shard, hy₁]

theorem select_exact_iff {shape : List Nat} {y₀ y₁ z : Tensor α} (hy₀ : y₀.shape = s.globalShape)
    (hy₁ : y₁.shape = s.globalShape) (hz : z.shape = shape) (hd : 0 < shape.length)
    (hle : Forall₂ (· ≤ ·) shape s.globalShape) :
    Exact (fun y => ∃ result, ManualComputation₂ mesh sharding s.multiDimensionalSelect y₀ y₁ result ∧
        result.shape = s.globalShape ∧ removePadding 0 0 shape result = some y) z ↔
      ∀ q ∈ indices shape, (if ∃ d ∈ s.updatedShardedDims, s.InOperand d (coord q d) then y₀.get q
        else y₁.get q) = z.get q := by
  obtain ⟨locals, hlocals, hshape, hget⟩ := h.locals_eq hy₀ hy₁
  have hdivides₀ : Divides mesh sharding y₀.shape := hy₀ ▸ h.divides
  have hdivides₁ : Divides mesh sharding y₁.shape := hy₁ ▸ h.divides
  rw [← exact_iff_get h.ok h.mesh_pos h.divides hshape hget hz hd hle]
  refine exact_congr fun y => exists_congr fun result => and_congr_left fun _ => ?_
  exact manualComputation₂_iff hdivides₀ hdivides₁ hlocals

end SelectOk

/-! ### Dynamic update slices -/

/-- An update, or a constant with one value. -/
inductive Update (α : Type*)
  | tensor (u : Tensor α)
  | splat (v : α)

def Update.value (shape : List Nat) : Update α → Tensor α
  | tensor u => u
  | splat v => Tensor.splat shape v

namespace DUSToPadManualCompComm

section

variable (mesh : Mesh) (sharding : Sharding) (shape updateShape starts : List Nat)

/-- The padding to equal shards. The check divides by the extent of a shard that is rounded down. -/
def extraHighPads : List Nat :=
  List.zipWith (fun axes n =>
    let numDevices := numShards mesh axes
    let localSize := n / numDevices
    if localSize = 0 ∨ n % localSize ≠ 0 then numDevices - n % numDevices else 0) sharding shape

def globalShape : List Nat := List.zipWith (· + ·) shape (extraHighPads mesh sharding shape)

def highPads : List Nat :=
  List.zipWith (· - ·) shape (List.zipWith (· + ·) starts updateShape)

def updatedDims : List Nat :=
  (List.range shape.length).filter fun i => coord updateShape i ≠ coord shape i

def shardedDims : List Nat :=
  (List.range shape.length).filter fun i =>
    coord shape i / numShards mesh (sharding.getD i []) ≠ coord shape i

def updatedShardedDims : List Nat :=
  (updatedDims shape updateShape).filter fun i => i ∈ shardedDims mesh sharding shape

def select : Select where
  globalShape := globalShape mesh sharding shape
  localShape := localShape mesh sharding (globalShape mesh sharding shape)
  numDevices := sharding.map (numShards mesh)
  lowPads := starts
  highPads := highPads shape updateShape starts
  updateShape := updateShape
  updatedDims := updatedDims shape updateShape
  updatedShardedDims := updatedShardedDims mesh sharding shape updateShape

/-- When the pattern rewrites an update at constant start indices. -/
def Fires : Prop :=
  (∀ i < shape.length, coord starts i + coord updateShape i ≤ coord shape i) ∧ (∀ axes ∈ sharding, axes.length = 1) ∧
    (updatedDims shape updateShape = [] ∨ shardedDims mesh sharding shape ≠ [])

instance : Decidable (Fires mesh sharding shape updateShape starts) :=
  inferInstanceAs (Decidable (_ ∧ _ ∧ _))

/-- What the rewritten program makes of an operand and an update. -/
def Computes [Zero α] (x : Tensor α) (u : Update α) (y : Tensor α) : Prop :=
  let extraHighPads := extraHighPads mesh sharding x.shape
  let s := select mesh sharding x.shape updateShape starts
  if s.updatedDims = [] then y = u.value updateShape
  else ∃ globalOperand result, (if extraHighPads.any (· ≠ 0) then
        pad (padDims (List.replicate x.shape.length 0) extraHighPads) 0 x
      else some x) = some globalOperand ∧
    (match u with
      | .tensor u => ∃ pad₂,
        pad (padDims starts (List.zipWith (· + ·) extraHighPads s.highPads)) 0 u = some pad₂ ∧
          ManualComputation₂ mesh sharding s.multiDimensionalSelect globalOperand pad₂ result
      | .splat v => ManualComputation mesh sharding (fun innerOperand =>
          s.multiDimensionalSelect innerOperand (splat s.localShape fun _ => v)) globalOperand result) ∧
    result.shape = s.globalShape ∧ removePadding 0 0 x.shape result = some y

/-- Nothing is updated; or the shards are equal and their positions values of 32 bits, and every updated
dimension is sharded or there is nothing that the select has to take from the operand. -/
def HoldsWhen : Prop :=
  updatedDims shape updateShape = [] ∨ Divides mesh sharding (globalShape mesh sharding shape) ∧
      (∀ d ∈ updatedShardedDims mesh sharding shape updateShape,
        coord (localShape mesh sharding (globalShape mesh sharding shape)) d ≤ 2 ^ 32) ∧
      ((∀ d ∈ updatedDims shape updateShape, d ∈ shardedDims mesh sharding shape) ∨ 0 ∈ shape ∨
        ∃ d ∈ updatedShardedDims mesh sharding shape updateShape, coord updateShape d = 0)

instance : Decidable (HoldsWhen mesh sharding shape updateShape) :=
  inferInstanceAs (Decidable (_ ∨ _ ∧ _ ∧ (_ ∨ _ ∨ _)))

end

section

variable {mesh : Mesh} {sharding : Sharding} {shape updateShape starts : List Nat}

variable {d : Nat} {x : Tensor α} {u : Update α}

theorem mem_updatedDims : d ∈ updatedDims shape updateShape ↔
    d < shape.length ∧ coord updateShape d ≠ coord shape d := by
  simp [updatedDims]

theorem mem_shardedDims : d ∈ shardedDims mesh sharding shape ↔
    d < shape.length ∧ coord shape d / numShards mesh (sharding.getD d []) ≠ coord shape d := by
  simp [shardedDims]

theorem mem_updatedShardedDims : d ∈ updatedShardedDims mesh sharding shape updateShape ↔
    d ∈ updatedDims shape updateShape ∧ d ∈ shardedDims mesh sharding shape := by
  simp [updatedShardedDims]

variable (hrank : sharding.length = shape.length)

include hrank

theorem extraHighPads_length : (extraHighPads mesh sharding shape).length = shape.length := by
  rw [extraHighPads, length_zipWith, hrank, min_self]

theorem globalShape_length : (globalShape mesh sharding shape).length = shape.length := by
  rw [globalShape, length_zipWith, extraHighPads_length hrank, min_self]

theorem coord_globalShape (hd : d < shape.length) :
    coord (globalShape mesh sharding shape) d = coord shape d + coord (extraHighPads mesh sharding shape) d :=
  coord_zipWith hd ((extraHighPads_length hrank).symm ▸ hd)

theorem le_globalShape : Forall₂ (· ≤ ·) shape (globalShape mesh sharding shape) := by
  rw [forall₂_iff_get]
  refine ⟨(globalShape_length hrank).symm, fun i hi hi' => ?_⟩
  simp only [get_eq_getElem, globalShape, getElem_zipWith]
  exact le_self_add

variable (hupdate : updateShape.length = shape.length) (hstarts : starts.length = shape.length)

include hupdate hstarts

omit hrank in
theorem coord_highPads (hd : d < shape.length) :
    coord (highPads shape updateShape starts) d = coord shape d - (coord starts d + coord updateShape d) := by
  have hsum : d < (zipWith (· + ·) starts updateShape).length := by
    rw [length_zipWith, hstarts, hupdate, min_self]
    exact hd
  rw [highPads, coord_zipWith hd hsum, coord_zipWith (hstarts ▸ hd) (hupdate ▸ hd)]

theorem selectOk (hok : ShardingOk mesh sharding) (hmesh : ∀ n ∈ mesh, 0 < n)
    (hdevices : mesh.prod < 2 ^ 31) (hfires : Fires mesh sharding shape updateShape starts)
    (hdecodes : Decodes mesh sharding (globalShape mesh sharding shape))
    (hdivides : Divides mesh sharding (globalShape mesh sharding shape))
    (hsmall : ∀ d ∈ updatedShardedDims mesh sharding shape updateShape,
      coord (localShape mesh sharding (globalShape mesh sharding shape)) d ≤ 2 ^ 32) :
    SelectOk mesh sharding (select mesh sharding shape updateShape starts) := by
  obtain ⟨hfit, hone, -⟩ := hfires
  have hlen : (globalShape mesh sharding shape).length = shape.length := globalShape_length hrank
  have hdim : ∀ {d}, d ∈ updatedShardedDims mesh sharding shape updateShape →
      d < shape.length ∧ coord updateShape d ≠ coord shape d ∧
        coord shape d / numShards mesh (sharding.getD d []) ≠ coord shape d := fun hd => by
    obtain ⟨hupdated, hsharded⟩ := mem_updatedShardedDims.mp hd
    obtain ⟨hlt, hne⟩ := mem_updatedDims.mp hupdated
    exact ⟨hlt, hne, (mem_shardedDims.mp hsharded).2⟩
  have hpos : ∀ {d}, d ∈ updatedShardedDims mesh sharding shape updateShape → 0 < coord shape d := by
    intro d hd
    obtain ⟨-, -, hne⟩ := hdim hd
    refine pos_of_ne_zero fun hzero => hne ?_
    rw [hzero, Nat.zero_div]
  refine ⟨hok, hmesh, hdevices, hone, hdivides, rfl, rfl, hstarts.trans hlen.symm, hdecodes,
    fun d hd => hlen.symm ▸ (hdim hd).1, fun d hd => ?_, fun d hd => ?_, fun d hd => ?_,
    fun d hd _ => ?_, fun d hd => ?_, hsmall⟩
  · exact lt_of_lt_of_le (hpos hd)
      ((coord_globalShape hrank (hdim hd).1).symm ▸ le_self_add)
  · obtain ⟨hlt, -, hne⟩ := hdim hd
    intro heq
    have hlt' : d < sharding.length := hrank ▸ hlt
    obtain ⟨a, ha⟩ := length_eq_one_iff.mp (hone _ (getElem_mem hlt'))
    have haxis : sharding[d]? = some [a] := by rw [getElem?_eq_getElem hlt', ha]
    have hlocal : coord (localShape mesh sharding (globalShape mesh sharding shape)) d = _ :=
      coord_localShape haxis (hlen.symm ▸ hlt)
    rw [getD_eq_getElem _ _ hlt', ha, numShards_one] at hne
    have heq : coord (globalShape mesh sharding shape) d =
        coord (globalShape mesh sharding shape) d / coord mesh a := heq.trans hlocal
    have hglobal : coord (globalShape mesh sharding shape) d = _ := coord_globalShape hrank hlt
    have hposition := hpos hd
    have hone : coord mesh a = 1 := by
      by_contra hmany
      by_cases hzero : coord mesh a = 0
      · rw [hzero, Nat.div_zero] at heq
        omega
      · have hlt := Nat.div_lt_self (by omega : 0 < coord (globalShape mesh sharding shape) d)
          (by omega : 1 < coord mesh a)
        omega
    exact hne (by rw [hone, Nat.div_one])
  · have hle := hfit d (hdim hd).1
    have hglobal : coord (globalShape mesh sharding shape) d = _ :=
      coord_globalShape hrank (hdim hd).1
    change coord starts d ≤ coord (globalShape mesh sharding shape) d
    omega
  · have hle := hfit d (hdim hd).1
    have hglobal : coord (globalShape mesh sharding shape) d = _ :=
      coord_globalShape hrank (hdim hd).1
    change coord starts d + coord updateShape d ≤ coord (globalShape mesh sharding shape) d
    omega
  · have hle := hfit d (hdim hd).1
    have hhigh := coord_highPads hupdate hstarts (hdim hd).1
    have hne := (hdim hd).2.1
    change coord starts d ≠ 0 ∨ coord (highPads shape updateShape starts) d ≠ 0
    omega

variable [Zero α]

omit hupdate hstarts in
theorem globalOperand_eq (mesh : Mesh) (hx : x.shape = shape) : ∃ y,
    (if (extraHighPads mesh sharding shape).any (· ≠ 0) then
        pad (padDims (replicate shape.length 0) (extraHighPads mesh sharding shape)) 0 x
      else some x) = some y ∧
    y.shape = globalShape mesh sharding shape ∧ ∀ q ∈ indices shape, y.get q = x.get q := by
  subst hx
  have hextra : (extraHighPads mesh sharding _).length = _ := extraHighPads_length hrank
  split
  · obtain ⟨y, hy, hshape, hget⟩ := pad_region (0 : α) (length_replicate) hextra
    have hzeros : zipWith (· + ·) (replicate x.shape.length 0) x.shape = x.shape :=
      ext_getElem (by simp) fun i hi hi' => by simp
    rw [hzeros] at hshape
    refine ⟨y, hy, hshape, fun q hq => ?_⟩
    have hlen := length_of_mem_indices hq
    have hregion : InRegion (replicate x.shape.length 0) x.shape q := by
      intro d hd
      have hzero : coord (replicate x.shape.length 0) d = 0 := by simp [coord]
      rw [hzero]
      exact ⟨Nat.zero_le _, coord_lt hq (hlen ▸ hd)⟩
    rw [(hget q (hshape ▸ indices_mono (le_globalShape hrank) hq)).1 hregion]
    refine congrArg x.get (ext_getElem (by simp [hlen]) fun i hi hi' => by simp)
  · rename_i hnone
    refine ⟨x, rfl, ?_, fun _ _ => rfl⟩
    refine ext_getElem (globalShape_length hrank).symm fun i hi hi' => ?_
    simp only [List.any_eq_true, not_exists, not_and, decide_eq_true_eq, not_not] at hnone
    have hzero := hnone _ (getElem_mem (hextra.symm ▸ hi : i < _))
    simp only [globalShape, getElem_zipWith, hzero, add_zero]

theorem pad₂_eq (hfires : Fires mesh sharding shape updateShape starts) {u : Tensor α}
    (hu : u.shape = updateShape) : ∃ y,
    pad (padDims starts (zipWith (· + ·) (extraHighPads mesh sharding shape)
        (highPads shape updateShape starts))) 0 u = some y ∧
    y.shape = globalShape mesh sharding shape ∧ ∀ q ∈ indices (globalShape mesh sharding shape),
      (InRegion starts updateShape q → y.get q = u.get (zipWith (· - ·) q starts)) ∧
      (¬InRegion starts updateShape q → y.get q = 0) := by
  subst hu
  have hextra : (extraHighPads mesh sharding _).length = _ := extraHighPads_length hrank
  have hhigh : (highPads shape u.shape starts).length = shape.length := by
    rw [highPads, length_zipWith, length_zipWith, hupdate, hstarts, min_self, min_self]
  have htotal : (zipWith (· + ·) (extraHighPads mesh sharding shape)
      (highPads shape u.shape starts)).length = u.shape.length := by
    rw [length_zipWith, hextra, hhigh, hupdate, min_self]
  obtain ⟨y, hy, hshape, hget⟩ := pad_region (0 : α) (hstarts.trans hupdate.symm) htotal
  have hshape : y.shape = globalShape mesh sharding shape := by
    rw [hshape]
    refine ext_getElem ?_ fun i hi hi' => ?_
    · simp only [length_zipWith, hstarts, hupdate, hextra, hhigh, globalShape, min_self]
    · have hlt : i < shape.length := by
        rw [globalShape, length_zipWith, hextra, min_self] at hi'
        exact hi'
      have hfit := hfires.1 i hlt
      rw [coord, coord, coord, getD_eq_getElem _ _ (hstarts ▸ hlt),
        getD_eq_getElem _ _ (hupdate ▸ hlt), getD_eq_getElem _ _ hlt] at hfit
      simp only [globalShape, highPads, getElem_zipWith]
      omega
  exact ⟨y, hy, hshape, fun q hq => hget q (hshape ▸ hq)⟩

theorem computes_iff (hfires : Fires mesh sharding shape updateShape starts)
    (hupdated : updatedDims shape updateShape ≠ []) (hx : x.shape = shape)
    (hu : (u.value updateShape).shape = updateShape) :
    ∃ y₀ y₁ : Tensor α, y₀.shape = globalShape mesh sharding shape ∧ y₁.shape = globalShape mesh sharding shape ∧
      (∀ q ∈ indices shape, y₀.get q = x.get q) ∧
      (∀ q ∈ indices shape, InRegion starts updateShape q →
        y₁.get q = (u.value updateShape).get (zipWith (· - ·) q starts)) ∧
      (∀ t, u = .tensor t → ∀ q ∈ indices shape, ¬InRegion starts updateShape q → y₁.get q = 0) ∧
      ∀ y, Computes mesh sharding updateShape starts x u y ↔ ∃ result, ManualComputation₂ mesh sharding
          (select mesh sharding shape updateShape starts).multiDimensionalSelect y₀ y₁ result ∧
        result.shape = globalShape mesh sharding shape ∧ removePadding 0 0 shape result = some y := by
  subst hx
  obtain ⟨y₀, hy₀, hshape₀, hget₀⟩ := globalOperand_eq hrank mesh (rfl : x.shape = x.shape)
  have hmono : ∀ q ∈ indices x.shape, q ∈ indices (globalShape mesh sharding x.shape) :=
    fun q hq => indices_mono (le_globalShape hrank) hq
  have hcomputes : ∀ {p : Tensor α → Tensor α → Prop} {y₁ : Tensor α} {y : Tensor α},
      (∀ result, p y₀ result ↔ ManualComputation₂ mesh sharding
        (select mesh sharding x.shape updateShape starts).multiDimensionalSelect y₀ y₁ result) →
      ((∃ globalOperand result, (if (extraHighPads mesh sharding x.shape).any (· ≠ 0) then
            pad (padDims (replicate x.shape.length 0) (extraHighPads mesh sharding x.shape)) 0 x
          else some x) = some globalOperand ∧ p globalOperand result ∧
        result.shape = globalShape mesh sharding x.shape ∧
        removePadding 0 0 x.shape result = some y) ↔
      ∃ result, ManualComputation₂ mesh sharding
          (select mesh sharding x.shape updateShape starts).multiDimensionalSelect y₀ y₁ result ∧
        result.shape = globalShape mesh sharding x.shape ∧
        removePadding 0 0 x.shape result = some y) := by
    intro p y₁ y hp
    constructor
    · intro ⟨globalOperand, result, hoperand, hmanual, hrest⟩
      cases hy₀.symm.trans hoperand
      exact ⟨result, (hp result).mp hmanual, hrest⟩
    · intro ⟨result, hmanual, hrest⟩
      exact ⟨y₀, result, hy₀, (hp result).mpr hmanual, hrest⟩
  cases u with
  | tensor u =>
    obtain ⟨y₁, hy₁, hshape₁, hget₁⟩ := pad₂_eq hrank hupdate hstarts hfires hu
    refine ⟨y₀, y₁, hshape₀, hshape₁, hget₀, fun q hq => (hget₁ q (hmono q hq)).1,
      fun _ _ q hq => (hget₁ q (hmono q hq)).2, fun y => ?_⟩
    rw [Computes]
    refine (iff_of_eq (if_neg hupdated)).trans (hcomputes fun result => ?_)
    constructor
    · intro ⟨pad₂, hpad₂, hmanual⟩
      cases hy₁.symm.trans hpad₂
      exact hmanual
    · intro hmanual
      exact ⟨y₁, hy₁, hmanual⟩
  | splat v =>
    refine ⟨y₀, splat (globalShape mesh sharding x.shape) v, hshape₀, rfl, hget₀, fun _ _ _ => rfl, nofun, fun y => ?_⟩
    rw [Computes]
    refine (iff_of_eq (if_neg hupdated)).trans (hcomputes fun result => ?_)
    constructor
    · intro ⟨hdivides, hmanual⟩
      exact ⟨hdivides, hshape₀ ▸ hdivides, hmanual⟩
    · intro ⟨hdivides, _, hmanual⟩
      exact ⟨hdivides, hmanual⟩

theorem exact_of_not_updated (hupdated : updatedDims shape updateShape = []) (hx : x.shape = shape)
    (hu : (u.value updateShape).shape = updateShape) :
    ∃ z, dynamicUpdateSlice (starts.map Int.ofNat) (u.value updateShape) x = some z ∧
      Exact (Computes mesh sharding updateShape starts x u) z := by
  subst hx
  have hshape : updateShape = x.shape := by
    refine ext_getElem hupdate fun i hi hi' => ?_
    by_contra hne
    have hmem : i ∈ updatedDims x.shape updateShape := by
      refine mem_updatedDims.mpr ⟨hi', ?_⟩
      rwa [coord, coord, getD_eq_getElem _ _ hi, getD_eq_getElem _ _ hi']
    rw [hupdated] at hmem
    exact absurd hmem not_mem_nil
  have hlen : (starts.map Int.ofNat).length = x.shape.length := by rw [length_map, hstarts]
  obtain ⟨z, hz, hsame⟩ := dynamicUpdateSlice_full hlen (hu.trans hshape)
  have hcomputes : ∀ y, Computes mesh sharding updateShape starts x u y ↔ y = u.value updateShape := by
    intro y
    rw [Computes]
    exact iff_of_eq (if_pos hupdated)
  refine ⟨z, hz, ⟨_, (hcomputes _).mpr rfl⟩, fun y hy => ?_⟩
  rw [(hcomputes y).mp hy]
  exact hsame.symm

theorem exact_iff_select (hfires : Fires mesh sharding shape updateShape starts)
    (hupdated : updatedDims shape updateShape ≠ [])
    (h : SelectOk mesh sharding (select mesh sharding shape updateShape starts)) (hx : x.shape = shape)
    (hu : (u.value updateShape).shape = updateShape) :
    ∃ z y₁ : Tensor α, dynamicUpdateSlice (starts.map Int.ofNat) (u.value updateShape) x = some z ∧
      (∀ q ∈ indices shape, InRegion starts updateShape q → y₁.get q = z.get q) ∧
      (∀ q ∈ indices shape, ¬InRegion starts updateShape q → z.get q = x.get q) ∧
      (∀ t, u = .tensor t → ∀ q ∈ indices shape, ¬InRegion starts updateShape q → y₁.get q = 0) ∧
      (Exact (Computes mesh sharding updateShape starts x u) z ↔ ∀ q ∈ indices shape,
        (if ∃ d ∈ updatedShardedDims mesh sharding shape updateShape,
            (select mesh sharding shape updateShape starts).InOperand d (coord q d) then x.get q
          else y₁.get q) = z.get q) := by
  subst hx
  have hpos : 0 < x.shape.length := by
    obtain ⟨d, dims, heq⟩ := exists_cons_of_ne_nil hupdated
    exact pos_of_gt (mem_updatedDims.mp (heq ▸ mem_cons_self)).1
  obtain ⟨y₀, y₁, hy₀, hy₁, hget₀, hget₁, hzero, hcomputes⟩ :=
    computes_iff hrank hupdate hstarts hfires hupdated rfl hu
  obtain ⟨z, hz, hzShape, hzGet⟩ := dynamicUpdateSlice_eq hstarts (hu ▸ hupdate)
    fun d hd => hu.symm ▸ hfires.1 d hd
  rw [hu] at hzGet
  refine ⟨z, y₁, hz, fun q hq hin => ?_, fun q hq => (hzGet q hq).2, hzero, ?_⟩
  · rw [hget₁ q hq hin, (hzGet q hq).1 hin]
  · rw [exact_congr hcomputes]
    refine (h.select_exact_iff hy₀ hy₁ hzShape hpos (le_globalShape hrank)).trans ?_
    refine forall_congr' fun q => forall_congr' fun hq => ?_
    rw [hget₀ q hq]
    rfl

omit [Zero α] hrank in
/-- The select has the operand for every element outside of the update of a sharded dimension. -/
theorem inOperand_iff (hfires : Fires mesh sharding shape updateShape starts) {q : Nat}
    (hd : d < shape.length) (hq : q < coord shape d) :
    (select mesh sharding shape updateShape starts).InOperand d q ↔
      ¬(coord starts d ≤ q ∧ q - coord starts d < coord updateShape d) := by
  have hfit := hfires.1 d hd
  have hhigh := coord_highPads hupdate hstarts hd
  change q < coord starts d ∨ coord (highPads shape updateShape starts) d ≠ 0 ∧
    coord starts d + coord updateShape d ≤ q ↔ _
  omega

omit hrank in
theorem exists_unsharded (hfires : Fires mesh sharding shape updateShape starts) (hnonempty : 0 ∉ shape) {e : Nat}
    (he : e ∈ updatedDims shape updateShape) (hunsharded : e ∉ shardedDims mesh sharding shape)
    (hall : ∀ d ∈ updatedShardedDims mesh sharding shape updateShape, coord updateShape d ≠ 0) :
    ∃ q ∈ indices shape, ¬InRegion starts updateShape q ∧ ¬∃ d ∈ updatedShardedDims mesh sharding shape updateShape,
        (select mesh sharding shape updateShape starts).InOperand d (coord q d) := by
  obtain ⟨heLt, heNe⟩ := mem_updatedDims.mp he
  have hposition : ∀ {d}, d < shape.length → 0 < coord shape d := by
    intro d hd
    rw [coord, getD_eq_getElem _ _ hd]
    exact pos_of_ne_zero fun hzero => hnonempty (hzero ▸ getElem_mem hd)
  have hfit := hfires.1
  -- Outside of the update along `e`, and at its start along the sharded dimensions.
  let place : Nat → Nat := fun d =>
    if d = e then if 0 < coord starts e then 0 else coord updateShape e
    else if d ∈ updatedShardedDims mesh sharding shape updateShape then coord starts d else 0
  have hcoord : ∀ {d}, d < shape.length → coord ((range shape.length).map place) d = place d := by
    intro d hd
    simp [coord, hd]
  have hlt : ∀ {d}, d < shape.length → place d < coord shape d := by
    intro d hd
    have hfit := hfit d hd
    have hpos := hposition hd
    by_cases heq : d = e
    · subst heq
      simp only [place, if_true]
      split
      · exact hpos
      · omega
    · simp only [place, if_neg heq]
      split
      · rename_i hmem
        have hne := hall d hmem
        omega
      · exact hpos
  refine ⟨(range shape.length).map place, mem_indices_iff.mpr ⟨by simp, fun d hd => ?_⟩, fun hin => ?_, ?_⟩
  · rw [hcoord hd]
    exact hlt hd
  · have hin := hin e (by simpa using heLt)
    have hfit := hfit e heLt
    rw [hcoord heLt] at hin
    simp only [place, if_true] at hin
    split at hin
    · omega
    · omega
  · rintro ⟨d, hd, hin⟩
    obtain ⟨hupdated, hsharded⟩ := mem_updatedShardedDims.mp hd
    have hdLt := (mem_updatedDims.mp hupdated).1
    have hne : d ≠ e := fun heq => hunsharded (heq ▸ hsharded)
    rw [hcoord hdLt, inOperand_iff hupdate hstarts hfires hdLt (hlt hdLt)] at hin
    simp only [place, if_neg hne, if_pos hd] at hin
    have hnonzero := hall d hd
    omega

theorem exact_iff_holdsWhen [Nontrivial α] (hok : ShardingOk mesh sharding) (hmesh : ∀ n ∈ mesh, 0 < n)
    (hdevices : mesh.prod < 2 ^ 31) (hfires : Fires mesh sharding shape updateShape starts)
    (hdecodes : Decodes mesh sharding (globalShape mesh sharding shape)) :
    (∀ (x : Tensor α) (u : Update α), x.shape = shape → (u.value updateShape).shape = updateShape →
      ∃ z, dynamicUpdateSlice (starts.map Int.ofNat) (u.value updateShape) x = some z ∧
        Exact (Computes mesh sharding updateShape starts x u) z) ↔
    HoldsWhen mesh sharding shape updateShape := by
  by_cases hupdated : updatedDims shape updateShape = []
  · exact iff_of_true (fun x u hx hu => exact_of_not_updated hrank hupdate hstarts hupdated hx hu)
      (.inl hupdated)
  have hselect := selectOk hrank hupdate hstarts hok hmesh hdevices hfires hdecodes
  constructor
  · intro hexact
    obtain ⟨a, ha⟩ := exists_ne (0 : α)
    have hshape : (Update.tensor (splat updateShape (0 : α)) |>.value updateShape).shape =
        updateShape := rfl
    obtain ⟨z, hz, hzExact⟩ := hexact (splat shape a) (.tensor (splat updateShape 0)) rfl hshape
    obtain ⟨y₀, y₁, hy₀, hy₁, -, -, -, hcomputes⟩ :=
      computes_iff (α := α) hrank hupdate hstarts hfires hupdated
        (rfl : (splat shape a).shape = shape) hshape
    obtain ⟨y, hy⟩ := hzExact.1
    obtain ⟨result, ⟨hdivides, -, locals, hlocals, -⟩, -⟩ := (hcomputes y).mp hy
    rw [hy₀] at hdivides
    have hsmall : ∀ d ∈ updatedShardedDims mesh sharding shape updateShape,
        coord (localShape mesh sharding (globalShape mesh sharding shape)) d ≤ 2 ^ 32 := by
      intro d hd
      exact (Select.of_select_eq_some hlocals (ne_nil_of_mem hd)).2 d hd
    refine .inr ⟨hdivides, hsmall, ?_⟩
    by_contra hcond
    simp only [not_or, not_forall, not_exists, not_and] at hcond
    obtain ⟨⟨e, he, hunsharded⟩, hnonempty, hall⟩ := hcond
    obtain ⟨q, hq, hout, hin⟩ :=
      exists_unsharded hupdate hstarts hfires hnonempty he hunsharded hall
    obtain ⟨z', y₁, hz', -, hoperand, hzero, hiff⟩ := exact_iff_select hrank hupdate hstarts hfires
      hupdated (hselect hdivides hsmall) (rfl : (splat shape a).shape = shape) hshape
    cases hz.symm.trans hz'
    have hline := hiff.mp hzExact q hq
    rw [if_neg hin, hzero _ rfl q hq hout, hoperand q hq hout] at hline
    exact ha hline.symm
  · intro hcond x u hx hu
    obtain ⟨hdivides, hsmall, hcond⟩ := hcond.resolve_left hupdated
    obtain ⟨z, y₁, hz, hregion, hoperand, -, hiff⟩ := exact_iff_select hrank hupdate hstarts hfires
      hupdated (hselect hdivides hsmall) hx hu
    refine ⟨z, hz, hiff.mpr fun q hq => ?_⟩
    have hlen := length_of_mem_indices hq
    by_cases hin : ∃ d ∈ updatedShardedDims mesh sharding shape updateShape,
        (select mesh sharding shape updateShape starts).InOperand d (coord q d)
    · rw [if_pos hin]
      obtain ⟨d, hd, hin⟩ := hin
      have hlt := (mem_updatedDims.mp (mem_updatedShardedDims.mp hd).1).1
      refine (hoperand q hq fun hregion => ?_).symm
      exact (inOperand_iff hupdate hstarts hfires hlt (coord_lt hq hlt)).mp hin
        (hregion d (hlen ▸ hlt))
    · rw [if_neg hin]
      refine hregion q hq fun d hd => ?_
      have hlt : d < shape.length := hlen ▸ hd
      by_cases hmem : d ∈ updatedShardedDims mesh sharding shape updateShape
      · by_contra hout
        exact hin ⟨d, hmem, (inOperand_iff hupdate hstarts hfires hlt (coord_lt hq hlt)).mpr hout⟩
      · by_cases hd : d ∈ updatedDims shape updateShape
        · obtain hsharded | hempty | ⟨e, he, hzero⟩ := hcond
          · exact absurd (mem_updatedShardedDims.mpr ⟨hd, hsharded d hd⟩) hmem
          · exact absurd (pos_of_mem_indices hq 0 hempty) (lt_irrefl 0)
          · have heLt := (mem_updatedDims.mp (mem_updatedShardedDims.mp he).1).1
            refine absurd ⟨e, he, ?_⟩ hin
            rw [inOperand_iff hupdate hstarts hfires heLt (coord_lt hq heLt), hzero]
            omega
        · have hsame : coord updateShape d = coord shape d := by
            by_contra hne
            exact hd (mem_updatedDims.mpr ⟨hlt, hne⟩)
          have hfit := hfires.1 d hlt
          have hlt := coord_lt hq hlt
          omega

end

end DUSToPadManualCompComm

end EnzymeJax
