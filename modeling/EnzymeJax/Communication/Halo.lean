import EnzymeJax.Communication.Manual
import EnzymeJax.Communication.ShiftPairs

/-!
# Borders around a sharded dimension

Wrap and extend put a border of one size on both sides of a sharded dimension. The outer devices build their parts
from the border; the others shift their shard towards the middle of the mesh and fill up from one neighbour.
-/

namespace EnzymeJax

open Tensor List Option

variable {α : Type*}

/-- The value converted to an `int`. -/
def int32 (n : Int) : Int := n.bmod (2 ^ 32)

/-- The result of `int` arithmetic; an overflow is undefined. -/
def intResult (n : Int) : Option Int := if -2 ^ 31 ≤ n ∧ n < 2 ^ 31 then some n else none

/-- The padding on both sides, the common border, and the extent of the padded result. -/
structure WrapExtendConfiguration where
  leftPadding : Int
  rightPadding : Int
  paddedBoundarySize : Int
  paddedResultSize : Int
  deriving DecidableEq

/-- The sizes are converted to `int`; the number of devices is small enough to be one. -/
def getWrapExtendConfiguration (middleSize lhsSize rhsSize numDevices : Int) :
    Option WrapExtendConfiguration := do
  let middleSize := int32 middleSize
  let lhsSize := int32 lhsSize
  let rhsSize := int32 rhsSize
  let leftPadding ← (if lhsSize < rhsSize then intResult (rhsSize - lhsSize) else some 0)
  let rightPadding ← (if rhsSize < lhsSize then intResult (lhsSize - rhsSize) else some 0)
  let paddedBoundarySize := if lhsSize < rhsSize then rhsSize else lhsSize
  let paddedResultSize ← intResult (middleSize + 2 * paddedBoundarySize)
  if paddedResultSize.tmod numDevices ≠ 0 then
    let extra := (paddedResultSize.tdiv numDevices + 1) * numDevices - paddedResultSize
    if extra.tmod 2 = 0 then
      some ⟨← intResult (leftPadding + extra.tdiv 2), ← intResult (rightPadding + extra.tdiv 2),
        ← intResult (paddedBoundarySize + extra.tdiv 2), ← intResult (paddedResultSize + extra)⟩
    else some ⟨-1, -1, -1, -1⟩
  else some ⟨leftPadding, rightPadding, paddedBoundarySize, paddedResultSize⟩

/-- The checks that wrap and extend share. -/
def WrapExtendConfiguration.Fires (config : WrapExtendConfiguration) (n numDevices : Nat) : Prop :=
  numDevices ≠ 1 ∧ numDevices % 2 = 0 ∧
    (config.leftPadding ≠ -1 ∧ config.rightPadding ≠ -1 ∧ config.paddedBoundarySize ≠ -1 ∧
      config.paddedResultSize ≠ -1) ∧
    config.paddedBoundarySize ≤ (n / numDevices : Nat)

instance (config : WrapExtendConfiguration) (n numDevices : Nat) :
    Decidable (config.Fires n numDevices) :=
  inferInstanceAs (Decidable (_ ∧ _ ∧ _ ∧ _))

/-! ### The local programs -/

def partitionId (device : Nat) : BitVec 32 := BitVec.ofNat 32 device

/-- The position that the program takes a device to have. -/
def leftSide (numDevices device : Nat) : BitVec 32 :=
  partitionId device % BitVec.ofNat 32 numDevices

def isLeftSide (numDevices device : Nat) : Bool := leftSide numDevices device == 0

def isRightSide (numDevices device : Nat) : Bool :=
  (partitionId device + 1) % BitVec.ofNat 32 numDevices == 0

def isLeftBlock (numDevices device : Nat) : Bool :=
  (leftSide numDevices device).ult (BitVec.ofNat 32 (numDevices / 2))

/-- The parts of the devices that are not at an end. -/
def generateCommPatternForNonEdges [Zero α] (mesh : Mesh) (axis dim numDevices : Nat)
    (boundary : Int) (localRetSize : Nat) (innerArg : Tensor (Nat → α)) :
    Option (Tensor (Nat → α)) := do
  let shape := innerArg.shape
  let size := coord shape dim
  let alpha := BitVec.ofInt 32 ((2 * boundary).tdiv numDevices)
  let leftSlice ← slice (sliceAlong dim (size - boundary) size shape) innerArg
  let rightSlice ← slice (sliceAlong dim 0 boundary shape) innerArg
  let sent ← ifDevice (isLeftBlock numDevices) leftSlice rightSlice
  let cperm ← collectivePermute mesh.prod (generateShiftPairs mesh axis true false true) sent
  let left ← concatenate dim [cperm, innerArg]
  let leftPart ← dynamicSliceDevice
    (startsAlong left.shape.length dim fun device => (leftSide numDevices device * alpha).toNat)
    (left.shape.set dim localRetSize) left
  let right ← concatenate dim [innerArg, cperm]
  let constVal := BitVec.ofInt 32 ((coord right.shape dim : Int) - localRetSize)
  let rightPart ← dynamicSliceDevice
    (startsAlong right.shape.length dim fun device =>
      (constVal - leftSide numDevices device * alpha).toNat)
    (right.shape.set dim localRetSize) right
  ifDevice (isLeftBlock numDevices) leftPart rightPart

/-- The part of the first device without its border. -/
def edgeLeftRest (dim : Nat) (boundary localRetSize : Int) (innerArg : Tensor (Nat → α)) :
    Option (Tensor (Nat → α)) :=
  if localRetSize - boundary = coord innerArg.shape dim then some innerArg
  else slice (sliceAlong dim 0 (localRetSize - boundary) innerArg.shape) innerArg

/-- The part of the last device without its border. -/
def edgeRightRest (dim numDevices : Nat) (boundary : Int) (innerArg : Tensor (Nat → α)) :
    Option (Tensor (Nat → α)) :=
  let start := boundary - (2 * boundary).tdiv numDevices
  if start = 0 then some innerArg
  else slice (sliceAlong dim start (coord innerArg.shape dim) innerArg.shape) innerArg

/-- The ends send each other the borders. -/
def wrapCommPatternForEdges [Zero α] (mesh : Mesh) (axis dim numDevices : Nat) (boundary : Int)
    (localRetSize : Nat) (innerArg : Tensor (Nat → α)) : Option (Tensor (Nat → α)) := do
  let shape := innerArg.shape
  let size := coord shape dim
  let endSlice ← slice (sliceAlong dim 0 boundary shape) innerArg
  let startSlice ← slice (sliceAlong dim (size - boundary) size shape) innerArg
  let sent ← ifDevice (isLeftSide numDevices) endSlice startSlice
  let commResult ← collectivePermute mesh.prod
    (generateShiftPairs mesh axis true true false ++ generateShiftPairs mesh axis false true false)
    sent
  let lhsRightSlice ← edgeLeftRest dim boundary localRetSize innerArg
  let left ← concatenate dim [commResult, lhsRightSlice]
  let rhsLeftSlice ← edgeRightRest dim numDevices boundary innerArg
  let right ← concatenate dim [rhsLeftSlice, commResult]
  ifDevice (isLeftSide numDevices) left right

/-- The ends have their borders themselves. -/
def extendCommPatternForEdges (dim numDevices : Nat) (boundary : Int) (localRetSize : Nat)
    (innerArg : Tensor (Nat → α)) : Option (Tensor (Nat → α)) := do
  let shape := innerArg.shape
  let size := coord shape dim
  let startSlice ← slice (sliceAlong dim 0 boundary shape) innerArg
  let lhsRightSlice ← edgeLeftRest dim boundary localRetSize innerArg
  let left ← concatenate dim [startSlice, lhsRightSlice]
  let endSlice ← slice (sliceAlong dim (size - boundary) size shape) innerArg
  let rhsLeftSlice ← edgeRightRest dim numDevices boundary innerArg
  let right ← concatenate dim [rhsLeftSlice, endSlice]
  ifDevice (isLeftSide numDevices) left right

/-- With two devices both are ends. -/
def borderBody [Zero α] (mesh : Mesh) (axis dim numDevices : Nat) (boundary : Int)
    (localRetSize : Nat)
    (edges : Tensor (Nat → α) → Option (Tensor (Nat → α))) (innerArg : Tensor (Nat → α)) :
    Option (Tensor (Nat → α)) :=
  if numDevices ≠ 2 then do
    let inner ← generateCommPatternForNonEdges mesh axis dim numDevices boundary localRetSize innerArg
    let outer ← edges innerArg
    ifDevice (fun device => !isLeftSide numDevices device && !isRightSide numDevices device)
      inner outer
  else edges innerArg

/-- The rewriting that wrap and extend share: what it makes of an operand, with `edges` for the local
program of the ends. -/
def ComputesBorders [Zero α] (mesh : Mesh) (sharding : Sharding) (dim axis : Nat) (lhs rhs : Nat)
    (config : WrapExtendConfiguration)
    (edges : Int → Nat → Tensor (Nat → α) → Option (Tensor (Nat → α))) (x y : Tensor α) : Prop :=
  let numDevices := numShards mesh (sharding.getD dim [])
  let boundary := config.paddedBoundarySize
  ∃ inputArg result, padOthers mesh sharding dim x = some inputArg ∧ 0 ≤ config.paddedResultSize ∧
    ManualComputation mesh sharding
      (borderBody mesh axis dim numDevices boundary (config.paddedResultSize.toNat / numDevices)
        (edges boundary (config.paddedResultSize.toNat / numDevices))) inputArg result ∧
    result.shape = inputArg.shape.set dim config.paddedResultSize.toNat ∧
    removePadding dim config.leftPadding.toNat
      (x.shape.set dim (lhs + coord x.shape dim + rhs)) result = some y

/-! ### The lines of the local programs -/

section

variable [Zero α] {mesh : Mesh} {sharding : Sharding} {dim axis size n m : Nat} {x : Tensor α}

/-- The lines of the shards. -/
def shardLine (mesh : Mesh) (sharding : Sharding) (dim axis size : Nat) (x : Tensor α)
    (idx : List Nat) (k device : Nat) : α :=
  x.get (lineAt mesh sharding x.shape dim device idx (devicePos mesh axis device * size + k))

variable {device c numDevices : Nat} {g g' : List Nat → Nat → Nat → α}

omit [Zero α] in
theorem shardLine_moveAlong (h : ShardedAlong mesh sharding x.shape dim axis size) (hdev : device < mesh.prod)
    (hc : c < coord mesh axis) (idx : List Nat) (k : Nat) :
    shardLine mesh sharding dim axis size x idx k (moveAlong mesh axis c device) =
      x.get (lineAt mesh sharding x.shape dim device idx (c * size + k)) := by
  rw [shardLine, h.lineAt_moveAlong hdev hc, devicePos_moveAlong hdev h.axis_lt hc]

/-- The border that a device gets from another one. -/
def received (target : Nat → Option Nat) (mesh : Mesh) (axis : Nat)
    (f : List Nat → Nat → Nat → α) (idx : List Nat) (k device : Nat) : α :=
  ((target (devicePos mesh axis device)).map fun c => f idx k (moveAlong mesh axis c device)).getD 0

def sentLine (last : Nat → Bool) (size n : Nat) (f : List Nat → Nat → Nat → α) (idx : List Nat)
    (k device : Nat) : α :=
  if last device then f idx (size - n + k) device else f idx k device

omit [Zero α] in
theorem appendLine_congr {f f' : List Nat → Nat → Nat → α} {idx : List Nat} {k : Nat}
    (hf : ∀ k, f idx k device = f' idx k device) (hg : ∀ k, g idx k device = g' idx k device) :
    appendLine n f g idx k device = appendLine n f' g' idx k device := by
  simp only [appendLine]
  split
  · exact hf k
  · exact hg _

/-- Where the window of an inner device starts in its part joined to what it gets. -/
def windowStart (numDevices size n m device : Nat) : Nat :=
  let shift := leftSide numDevices device * BitVec.ofInt 32 ((2 * n : Int).tdiv numDevices)
  if isLeftBlock numDevices device then clampStart (n + size) m shift.toNat
  else clampStart (size + n) m (BitVec.ofInt 32 (((size + n : Nat) : Int) - m) - shift).toNat

/-- The lines that an inner device gets. -/
def innerComm (mesh : Mesh) (axis numDevices size n : Nat) (f : List Nat → Nat → Nat → α) :
    List Nat → Nat → Nat → α :=
  received (fun c => dstCoord (coord mesh axis) c true false true) mesh axis
    (sentLine (isLeftBlock numDevices) size n f)

theorem nonEdges_eq (h : ShardedAlong mesh sharding x.shape dim axis size) (hn : n ≤ size)
    (hm : m ≤ size + n) (numDevices : Nat) :
    let shardLine := shardLine mesh sharding dim axis size x
    let cperm := innerComm mesh axis numDevices size n shardLine
    ∃ y f, generateCommPatternForNonEdges mesh axis dim numDevices n m (shard mesh sharding x) =
        some y ∧ Along dim (localShape mesh sharding x.shape) m f y ∧
      ∀ idx k, ∀ device < mesh.prod, f idx k device =
        if isLeftBlock numDevices device then
          appendLine n cperm shardLine idx (windowStart numDevices size n m device + k) device
        else
          appendLine size shardLine cperm idx (windowStart numDevices size n m device + k) device := by
  intro shardLine cperm
  let shift device := leftSide numDevices device * BitVec.ofInt 32 ((2 * n : Int).tdiv numDevices)
  have halong : Along dim (localShape mesh sharding x.shape) size shardLine (shard mesh sharding x) :=
    h.along_shard rfl
  have hd := h.dim_lt_local
  obtain ⟨leftSlice, hleft, hleftAlong⟩ :=
    halong.slice_nat (size - n) size (size - n) n hd (by omega) (by omega) (by omega)
  obtain ⟨rightSlice, hright, hrightAlong⟩ := halong.slice_start n n hd rfl hn
  obtain ⟨sent, hsent, hsentAlong⟩ :=
    Along.ifDevice (isLeftBlock numDevices) hleftAlong hrightAlong
  have hpairs := pairsOk_generateShiftPairs h.axis_lt true false true
  obtain ⟨comm, hcomm, g, hcommAlong, hg⟩ := along_collectivePermute
    (generateShiftPairs_eq ▸ hpairs) hsentAlong
  rw [← generateShiftPairs_eq] at hcomm
  have hg : ∀ idx k, ∀ device < mesh.prod, g idx k device = cperm idx k device := by
    intro idx k device hdev
    rw [hg idx k device hdev]
    rfl
  obtain ⟨left, hleftConcat, hleftLine⟩ := Along.concatenate_two hd hcommAlong halong
  obtain ⟨right, hrightConcat, hrightLine⟩ := Along.concatenate_two hd halong hcommAlong
  obtain ⟨leftPart, hleftPart, hleftResult⟩ := hleftLine.dynamicSliceDevice hd
    (fun device => ((shift device).toNat : Int)) (add_comm n size ▸ hm)
  obtain ⟨rightPart, hrightPart, hrightResult⟩ := hrightLine.dynamicSliceDevice hd
    (fun device =>
      ((BitVec.ofInt 32 (((size + n : Nat) : Int) - m) - shift device).toNat : Int)) hm
  obtain ⟨y, hy, hres⟩ := Along.ifDevice (isLeftBlock numDevices) hleftResult hrightResult
  refine ⟨y, _, ?_, hres, fun idx k device hdev => ?_⟩
  · simp only [generateCommPatternForNonEdges, halong.coord_shape hd, hleft, hright, hsent, hcomm,
      hleftConcat, hrightConcat, hrightLine.coord_shape hd, bind_eq_bind, bind_some]
    rw [hleftPart, bind_some, hrightPart, bind_some, hy]
  · by_cases hblock : isLeftBlock numDevices device = true
    · simp only [windowStart, hblock, if_true]
      exact appendLine_congr (fun k => hg idx k device hdev) fun _ => rfl
    · simp only [windowStart, hblock, Bool.false_eq_true, if_false]
      exact appendLine_congr (fun _ => rfl) fun k => hg idx k device hdev

variable {α' : Nat} {ls : List Nat} {f : List Nat → Nat → Nat → α} {innerArg : Tensor (Nat → α)}

omit [Zero α] in
theorem edgeLeftRest_eq (hd : dim < ls.length) (halong : Along dim ls size f innerArg) (hnm : n ≤ m)
    (hm : m ≤ size + n) : ∃ y, edgeLeftRest dim n m innerArg = some y ∧ Along dim ls (m - n) f y := by
  have hcoord := halong.coord_shape hd
  rw [edgeLeftRest, hcoord]
  split
  · rename_i heq
    have hsize : m - n = size := by omega
    exact ⟨innerArg, rfl, hsize ▸ halong⟩
  · exact halong.slice_start (m - n) (m - n) hd (by omega) (by omega)

omit [Zero α] in
theorem edgeRightRest_eq (hd : dim < ls.length) (halong : Along dim ls size f innerArg)
    (hα : (2 * n : Int).tdiv numDevices = α') (hαn : α' ≤ n) (hn : n ≤ size) :
    ∃ y, edgeRightRest dim numDevices n innerArg = some y ∧
      Along dim ls (size - (n - α')) (fun idx k => f idx (n - α' + k)) y := by
  have hcoord := halong.coord_shape hd
  rw [edgeRightRest, hα, hcoord]
  by_cases hzero : (n : Int) - α' = 0
  · have hsub : n - α' = 0 := by omega
    rw [hsub, Nat.sub_zero]
    refine ⟨innerArg, if_pos hzero, halong.congr fun idx _ k _ => ?_⟩
    rw [zero_add]
  · obtain ⟨y, hy, hline⟩ := halong.slice_nat (n - α') size (n - α') (size - (n - α')) hd (by omega)
      (by omega) (by omega)
    exact ⟨y, (if_neg hzero).trans hy, hline⟩

omit [Zero α] in
theorem edges_joined (hd : dim < ls.length) (halong : Along dim ls size f innerArg)
    (hα : (2 * n : Int).tdiv numDevices = α') (hαn : α' ≤ n) (hn : n ≤ size) (hm : m = size + α')
    {first last : Tensor (Nat → α)} (hfirst : Along dim ls n g first) (hlast : Along dim ls n g' last) :
    ∃ lhsRight rhsLeft left right y, edgeLeftRest dim n m innerArg = some lhsRight ∧
      concatenate dim [first, lhsRight] = some left ∧
      edgeRightRest dim numDevices n innerArg = some rhsLeft ∧
      concatenate dim [rhsLeft, last] = some right ∧ ifDevice (isLeftSide numDevices) left right = some y ∧
      Along dim ls m (fun idx k device => if isLeftSide numDevices device then
        appendLine n g f idx k device else
        appendLine (m - n) (fun idx k => f idx (n - α' + k)) g' idx k device) y := by
  obtain ⟨lhsRight, hlhsRight, hlhsAlong⟩ :=
    edgeLeftRest_eq hd halong (by omega : n ≤ m) (by omega)
  obtain ⟨rhsLeft, hrhsLeft, hrhsAlong⟩ := edgeRightRest_eq hd halong hα hαn hn
  obtain ⟨left, hleft, hleftAlong⟩ := Along.concatenate_two hd hfirst hlhsAlong
  obtain ⟨right, hright, hrightAlong⟩ := Along.concatenate_two hd hrhsAlong hlast
  rw [show n + (m - n) = m by omega] at hleftAlong
  rw [show size - (n - α') + n = m by omega, show size - (n - α') = m - n by omega] at hrightAlong
  obtain ⟨y, hy, hres⟩ := Along.ifDevice (isLeftSide numDevices) hleftAlong hrightAlong
  exact ⟨lhsRight, rhsLeft, left, right, y, hlhsRight, hleft, hrhsLeft, hright, hy, hres⟩

/-- The ends exchange with each other. -/
def edgeTarget (numDevices c : Nat) : Option Nat :=
  (dstCoord numDevices c true true false).or (dstCoord numDevices c false true false)

theorem edgeTarget_eq (htwo : 2 ≤ numDevices) (hc : c < numDevices) : edgeTarget numDevices c =
      if c = numDevices - 1 then some 0 else if c = 0 then some (numDevices - 1) else none := by
  simp only [edgeTarget, dstCoord, left_eq hc, right_eq hc]
  grind

theorem pairsOk_edges (htwo : 2 ≤ coord mesh axis) (ha : axis < mesh.length) :
    PairsOk mesh.prod (generateShiftPairs mesh axis true true false ++
      generateShiftPairs mesh axis false true false) := by
  obtain ⟨hfst, hsnd, hlt⟩ := pairsOk_generateShiftPairs ha true true false
  obtain ⟨hfst', hsnd', hlt'⟩ := pairsOk_generateShiftPairs ha false true false
  have hright : ∀ p ∈ generateShiftPairs mesh axis true true false,
      devicePos mesh axis p.1 = 0 ∧ devicePos mesh axis p.2 = coord mesh axis - 1 := by
    intro p hp
    rw [generateShiftPairs_eq] at hp
    obtain ⟨hdev, c, hc, heq⟩ := mem_movePairs.mp hp
    have hpos := devicePos_lt hdev ha
    rw [heq, devicePos_moveAlong hdev ha (dstCoord_lt hpos hc)]
    simp only [dstCoord, right_eq hpos] at hc
    grind
  have hleft : ∀ p ∈ generateShiftPairs mesh axis false true false,
      devicePos mesh axis p.1 = coord mesh axis - 1 ∧ devicePos mesh axis p.2 = 0 := by
    intro p hp
    rw [generateShiftPairs_eq] at hp
    obtain ⟨hdev, c, hc, heq⟩ := mem_movePairs.mp hp
    have hpos := devicePos_lt hdev ha
    rw [heq, devicePos_moveAlong hdev ha (dstCoord_lt hpos hc)]
    simp only [dstCoord, left_eq hpos] at hc
    grind
  refine ⟨?_, ?_, fun p hp => (mem_append.mp hp).elim (hlt p) (hlt' p)⟩
  · rw [map_append]
    refine nodup_append'.mpr ⟨hfst, hfst', fun d hd hd' => ?_⟩
    obtain ⟨p, hp, rfl⟩ := mem_map.mp hd
    obtain ⟨q, hq, heq⟩ := mem_map.mp hd'
    have h₁ := (hright p hp).1
    have h₂ := (hleft q hq).1
    rw [heq] at h₂
    omega
  · rw [map_append]
    refine nodup_append'.mpr ⟨hsnd, hsnd', fun d hd hd' => ?_⟩
    obtain ⟨p, hp, rfl⟩ := mem_map.mp hd
    obtain ⟨q, hq, heq⟩ := mem_map.mp hd'
    have h₁ := (hright p hp).2
    have h₂ := (hleft q hq).2
    rw [heq] at h₂
    omega

theorem find_edges (hdev : device < mesh.prod) : (generateShiftPairs mesh axis true true false ++
      generateShiftPairs mesh axis false true false).find? (fun p => p.2 == device) =
      (edgeTarget (coord mesh axis) (devicePos mesh axis device)).map fun c =>
        (moveAlong mesh axis c device, device) := by
  rw [find?_append, generateShiftPairs_eq, generateShiftPairs_eq, find_movePairs hdev,
    find_movePairs hdev, edgeTarget, map_or]

/-- The lines that the ends get. -/
def edgeComm (mesh : Mesh) (axis numDevices size n : Nat) (f : List Nat → Nat → Nat → α) :
    List Nat → Nat → Nat → α :=
  received (edgeTarget (coord mesh axis)) mesh axis
    (sentLine (fun device => !isLeftSide numDevices device) size n f)

theorem wrapEdges_eq (h : ShardedAlong mesh sharding x.shape dim axis size) (htwo : 2 ≤ coord mesh axis)
    (hα : (2 * n : Int).tdiv numDevices = α') (hαn : α' ≤ n) (hn : n ≤ size) (hm : m = size + α') :
    let shardLine := shardLine mesh sharding dim axis size x
    let comm := edgeComm mesh axis numDevices size n shardLine
    ∃ y f, wrapCommPatternForEdges mesh axis dim numDevices n m (shard mesh sharding x) = some y ∧
      Along dim (localShape mesh sharding x.shape) m f y ∧
      ∀ idx k, ∀ device < mesh.prod, f idx k device =
        if isLeftSide numDevices device then
          appendLine n comm shardLine idx k device
        else
          appendLine (m - n) (fun idx k => shardLine idx (n - α' + k)) comm idx k device := by
  intro shardLine comm
  have halong : Along dim (localShape mesh sharding x.shape) size shardLine (shard mesh sharding x) :=
    h.along_shard rfl
  have hd := h.dim_lt_local
  obtain ⟨endSlice, hend, hendAlong⟩ := halong.slice_start n n hd rfl hn
  obtain ⟨startSlice, hstart, hstartAlong⟩ :=
    halong.slice_nat (size - n) size (size - n) n hd (by omega) (by omega) (by omega)
  obtain ⟨sent, hsent, hsentAlong⟩ := Along.ifDevice (isLeftSide numDevices) hendAlong hstartAlong
  obtain ⟨commResult, hcomm, hcommAlong⟩ :=
    Along.collectivePermute (pairsOk_edges htwo h.axis_lt) hsentAlong
  obtain ⟨lhsRight, rhsLeft, left, right, y, hlhsRight, hleft, hrhsLeft, hright, hy, hres⟩ :=
    edges_joined hd halong hα hαn hn hm hcommAlong hcommAlong
  refine ⟨y, _, ?_, hres, fun idx k device hdev => ?_⟩
  · simp only [wrapCommPatternForEdges, halong.coord_shape hd, hend, hstart, hsent, hcomm, hlhsRight,
      hrhsLeft, hleft, hright, bind_eq_bind, bind_some, hy]
  · have hg : ∀ k, (((generateShiftPairs mesh axis true true false ++
        generateShiftPairs mesh axis false true false).find? fun p => p.2 == device).map fun p =>
          if isLeftSide numDevices p.1 = true then shardLine idx k p.1
          else shardLine idx (size - n + k) p.1).getD 0 = comm idx k device := by
      intro k
      rw [find_edges hdev]
      simp only [comm, edgeComm, received, sentLine, Option.map_map]
      cases edgeTarget (coord mesh axis) (devicePos mesh axis device) with
      | none => rfl
      | some c =>
        by_cases hside : isLeftSide numDevices (moveAlong mesh axis c device) = true
        · simp only [map_some, Function.comp, hside, if_true, Bool.not_true, Bool.false_eq_true, if_false]
        · simp only [Bool.not_eq_true] at hside
          simp only [map_some, Function.comp, hside, Bool.false_eq_true, if_false, Bool.not_false, if_true]
    by_cases hside : isLeftSide numDevices device = true
    · simp only [hside, if_true]
      exact appendLine_congr hg fun _ => rfl
    · simp only [hside, Bool.false_eq_true, if_false]
      refine appendLine_congr (fun _ => rfl) fun k => ?_
      exact hg k

omit [Zero α] in
theorem extendEdges_eq (h : ShardedAlong mesh sharding x.shape dim axis size)
    (hα : (2 * n : Int).tdiv numDevices = α') (hαn : α' ≤ n) (hn : n ≤ size) (hm : m = size + α') :
    let shardLine := shardLine mesh sharding dim axis size x
    ∃ y f, extendCommPatternForEdges dim numDevices n m (shard mesh sharding x) = some y ∧
      Along dim (localShape mesh sharding x.shape) m f y ∧
      ∀ idx k device, f idx k device =
        if isLeftSide numDevices device then
          appendLine n shardLine shardLine idx k device
        else
          appendLine (m - n) (fun idx k => shardLine idx (n - α' + k))
            (fun idx k => shardLine idx (size - n + k)) idx k device := by
  intro shardLine
  have halong : Along dim (localShape mesh sharding x.shape) size shardLine (shard mesh sharding x) :=
    h.along_shard rfl
  have hd := h.dim_lt_local
  obtain ⟨startSlice, hstart, hstartAlong⟩ := halong.slice_start n n hd rfl hn
  obtain ⟨endSlice, hend, hendAlong⟩ :=
    halong.slice_nat (size - n) size (size - n) n hd (by omega) (by omega) (by omega)
  obtain ⟨lhsRight, rhsLeft, left, right, y, hlhsRight, hleft, hrhsLeft, hright, hy, hres⟩ :=
    edges_joined hd halong hα hαn hn hm hstartAlong hendAlong
  refine ⟨y, _, ?_, hres, fun idx k device => rfl⟩
  simp only [extendCommPatternForEdges, halong.coord_shape hd, hend, hstart, hlhsRight,
    hrhsLeft, hleft, hright, bind_eq_bind, bind_some, hy]

end

end EnzymeJax
