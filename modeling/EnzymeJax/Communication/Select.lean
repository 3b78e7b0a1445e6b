import EnzymeJax.Communication.Halo

/-!
# Selecting between an operand and an update

`multiDimensionalSelect` decides on every device which elements come from the operand and which from the update. A
device that no test sends to the operand takes the update as it is; the others compare the positions in their
shard, but for comparisons that are decided already.
-/

namespace EnzymeJax

open Tensor List
open Option hiding or_assoc

variable {α : Type*}

/-- What `multiDimensionalSelect` gets besides the two values. -/
structure Select where
  globalShape : List Nat
  localShape : List Nat
  numDevices : List Nat
  lowPads : List Nat
  highPads : List Nat
  updateShape : List Nat
  updatedDims : List Nat
  updatedShardedDims : List Nat

/-- Where the elements come from the operand: a value computed at every position of the shard, or the
scalar that the branch was entered with. -/
inductive Mask
  | entry
  | positions (f : Nat → List Nat → Bool)

namespace Mask

def isEntry : Option Mask → Bool
  | some entry => true
  | _ => false

/-- The `or` of two values that may be null. -/
def or : Option Mask → Option Mask → Option (Option Mask)
  | none, mask => some mask
  | mask, none => some mask
  | some (positions f), some (positions g) =>
    some (some (positions fun device idx => f device idx || g device idx))
  | _, _ => none

/-- Where the mask takes the operand. -/
def Holds (mask : Option Mask) (device : Nat) (idx : List Nat) : Prop :=
  match mask with
  | none => False
  | some entry => True
  | some (positions f) => f device idx = true

end Mask

namespace Select

/-- The coordinates of a device, of which the first one changes fastest. -/
def multiDimIdxs : List Nat → List Nat → List Nat → BitVec 32 → List (BitVec 32)
  | globalSz :: globalShape, localSz :: localShape, nDevices :: numDevices, cur =>
    (if globalSz = localSz ∨ nDevices = 1 then 0
      else if localShape = [] then cur else cur % BitVec.ofNat 32 nDevices) ::
    multiDimIdxs globalShape localShape numDevices
      (if localShape ≠ [] ∧ nDevices ≠ 1 then cur / BitVec.ofNat 32 nDevices else cur)
  | _, _, _, _ => []

section

variable (s : Select) (d : Nat)

def position (device : Nat) : BitVec 32 :=
  (multiDimIdxs s.globalShape s.localShape s.numDevices (partitionId device)).getD d 0

/-- The first index behind the update. -/
def startIdx : Nat := coord s.lowPads d + coord s.updateShape d

def leftSide : Option (Nat → Bool) :=
  let low := coord s.lowPads d
  let size := coord s.localShape d
  if low = 0 then none
  else if low % size = 0 then
    some fun device => (s.position d device).ult (BitVec.ofNat 32 (low / size))
  else some fun device => (s.position d device).ule (BitVec.ofNat 32 (low / size))

def rightSide : Option (Nat → Bool) :=
  let size := coord s.localShape d
  if coord s.highPads d = 0 then none
  else some fun device => (BitVec.ofNat 32 (s.startIdx d / size)).ule (s.position d device)

def sidesOf : List (Nat → Bool) := (s.leftSide d).toList ++ (s.rightSide d).toList

def sides : List (Nat → Bool) := s.updatedShardedDims.flatMap s.sidesOf

def mayContainOperandData (device : Nat) : Bool := s.sides.any fun side => side device

/-- There is one way into the branch. -/
def onlySide : Bool := s.sides.length == 1

def lhs : Option Mask :=
  let low := coord s.lowPads d
  let size := coord s.localShape d
  let node := BitVec.ofNat 32 (low / size)
  if low = 0 then none
  else if low % size = 0 then
    if s.onlySide then some .entry
    else some (.positions fun device _ => (s.position d device).ult node)
  else
    let leftSideTransition := fun device idx =>
      (BitVec.ofNat 32 (coord idx d)).ult (BitVec.ofNat 32 (low % size)) &&
        (decide (coord s.globalShape d = size) || s.onlySide || s.position d device == node)
    some (.positions fun device idx =>
      leftSideTransition device idx || (!decide (low < size) && (s.position d device).ult node))

def rhs : Option Mask :=
  let startIdx := s.startIdx d
  let size := coord s.localShape d
  let node := BitVec.ofNat 32 (startIdx / size)
  if coord s.highPads d = 0 then none
  else if startIdx % size = 0 then
    if s.onlySide then some .entry
    else some (.positions fun device _ => node.ule (s.position d device))
  else
    let rightSideTransition := fun device idx =>
      (BitVec.ofNat 32 (startIdx % size)).ule (BitVec.ofNat 32 (coord idx d)) &&
        (decide (coord s.globalShape d = size) || s.onlySide || s.position d device == node)
    some (.positions fun device idx => rightSideTransition device idx ||
      (!decide ((startIdx / size : Nat) = (coord s.globalShape d / size : Int) - 1) && node.ult (s.position d device)))

def inOperand : Option (Option Mask) :=
  if Mask.isEntry (s.lhs d) then some (s.lhs d) else Mask.or (s.lhs d) (s.rhs d)

end

def multiIdxStep (multiIdx inOperand : Option Mask) : Option (Option Mask) :=
  if Mask.isEntry inOperand ∨ Mask.isEntry multiIdx then some (some .entry)
  else Mask.or multiIdx inOperand

def multiIdx (s : Select) : Option (Option Mask) :=
  s.updatedShardedDims.foldlM
    (fun multiIdx d => (s.inOperand d).bind fun inOperand => multiIdxStep multiIdx inOperand) none

/-- The start indices of the unsharded dimensions, as values of the type of the partition id. -/
def newStarts (s : Select) : List Int :=
  s.lowPads.mapIdx fun i low =>
    if i ∈ s.updatedShardedDims then 0 else ((BitVec.ofNat 32 low).toNat : Int)

def selectMask (innerOperand innerUpdate : Tensor (Nat → α)) :
    Option Mask → Option (Tensor (Nat → α))
  | none => none
  | some .entry => some innerOperand
  | some (.positions f) =>
    if innerOperand.shape = innerUpdate.shape then
      some ⟨innerOperand.shape, fun idx device =>
        if f device idx then innerOperand.get idx device else innerUpdate.get idx device⟩
    else none

/-- The update, and what an unsharded dimension keeps of the operand. -/
def innerUpdateVal (s : Select) (innerOperand innerUpdate : Tensor (Nat → α)) :
    Option (Tensor (Nat → α)) :=
  if s.updatedDims.length ≠ s.updatedShardedDims.length then
    dynamicUpdateSlice s.newStarts innerUpdate innerOperand
  else some innerUpdate

/-- The local program. There is none without a test, and none for positions that are not values of the
32 bits of the `iota`. -/
def multiDimensionalSelect (s : Select) (innerOperand innerUpdate : Tensor (Nat → α)) :
    Option (Tensor (Nat → α)) := do
  let innerUpdateVal ← s.innerUpdateVal innerOperand innerUpdate
  if s.updatedShardedDims = [] then some innerUpdateVal
  else if s.sides = [] ∨ ∃ d ∈ s.updatedShardedDims, 2 ^ 32 < coord s.localShape d then none
  else (s.multiIdx).bind fun multiIdx =>
    (selectMask innerOperand innerUpdateVal multiIdx).bind fun newV =>
      ifDevice s.mayContainOperandData newV innerUpdateVal

/-! ### The tests -/

/-- Position `q` of dimension `d` is not in the update. -/
def InOperand (s : Select) (d q : Nat) : Prop :=
  q < coord s.lowPads d ∨ coord s.highPads d ≠ 0 ∧ s.startIdx d ≤ q

instance (s : Select) (d q : Nat) : Decidable (s.InOperand d q) :=
  inferInstanceAs (Decidable (_ ∨ _))

/-- Dimension `d` is cut into `n` shards, and `c` are the positions of the devices. -/
structure DimOk (s : Select) (d n count : Nat) (c : Nat → Nat) : Prop where
  size_pos : 0 < coord s.localShape d
  size_le : coord s.localShape d ≤ 2 ^ 32
  global_eq : coord s.globalShape d = n * coord s.localShape d
  two_le : 2 ≤ n
  n_le : n ≤ 2 ^ 31
  low_le : coord s.lowPads d ≤ coord s.globalShape d
  start_le : coord s.highPads d ≠ 0 → s.startIdx d ≤ coord s.globalShape d
  padded : coord s.lowPads d ≠ 0 ∨ coord s.highPads d ≠ 0
  position_eq : ∀ device < count, (s.position d device).toNat = c device
  position_lt : ∀ device < count, c device < n

theorem position_lt_iff {c size t a : Nat} (ht : t < size) :
    c * size + t < a ↔ c < a / size ∨ c = a / size ∧ t < a % size := by
  have hdiv := Nat.div_add_mod a size
  have hmod := Nat.mod_lt a (pos_of_gt ht)
  rw [mul_comm] at hdiv
  obtain hlt | heq | hgt := lt_trichotomy c (a / size)
  · have hmul := Nat.mul_le_mul_right size hlt
    rw [Nat.succ_mul] at hmul
    exact ⟨fun _ => .inl hlt, fun _ => by omega⟩
  · rw [← heq] at hdiv
    constructor
    · intro h
      exact .inr ⟨heq, by omega⟩
    · rintro (h | ⟨-, h⟩)
      · omega
      · omega
  · have hmul := Nat.mul_le_mul_right size hgt
    rw [Nat.succ_mul] at hmul
    constructor
    · intro h
      omega
    · rintro (h | ⟨h, -⟩)
      · omega
      · omega

variable {idx : List Nat} {mask : Option Mask}

section

variable {s : Select} {d n count : Nat} {c : Nat → Nat} (h : s.DimOk d n count c) {device t : Nat}
  (hdevice : device < count) (ht : t < coord s.localShape d)

include h
variable {a : Nat}

theorem node_le (ha : a ≤ coord s.globalShape d) : a / coord s.localShape d ≤ n := by
  rw [h.global_eq] at ha
  exact Nat.div_le_of_le_mul (Nat.mul_comm _ _ ▸ ha)

theorem node_toNat (ha : a ≤ coord s.globalShape d) :
    (BitVec.ofNat 32 (a / coord s.localShape d)).toNat = a / coord s.localShape d := by
  have hle := node_le h ha
  have hn := h.n_le
  rw [BitVec.toNat_ofNat, Nat.mod_eq_of_lt (by omega)]

theorem index_toNat (ha : a < coord s.localShape d) : (BitVec.ofNat 32 a).toNat = a := by
  have hle := h.size_le
  rw [BitVec.toNat_ofNat, Nat.mod_eq_of_lt (by omega)]

include hdevice ht

theorem leftSide_of_lt (hlt : c device * coord s.localShape d + t < coord s.lowPads d) :
    ∃ f, s.leftSide d = some f ∧ f device = true := by
  have hposition := (position_lt_iff ht).mp hlt
  have hne : coord s.lowPads d ≠ 0 := by omega
  have hnode := node_toNat h h.low_le
  rw [leftSide]
  simp only [if_neg hne]
  split
  · rename_i hmod
    refine ⟨_, rfl, ?_⟩
    rw [BitVec.ult, decide_eq_true_iff, h.position_eq device hdevice, hnode]
    omega
  · refine ⟨_, rfl, ?_⟩
    rw [BitVec.ule, decide_eq_true_iff, h.position_eq device hdevice, hnode]
    omega

theorem rightSide_of_le (hhigh : coord s.highPads d ≠ 0) (hle : s.startIdx d ≤ c device * coord s.localShape d + t) :
    ∃ f, s.rightSide d = some f ∧ f device = true := by
  have hposition := (position_lt_iff ht).not.mp (Nat.not_lt.mpr hle)
  have hnode := node_toNat h (h.start_le hhigh)
  rw [rightSide]
  simp only [if_neg hhigh]
  refine ⟨_, rfl, ?_⟩
  rw [BitVec.ule, decide_eq_true_iff, h.position_eq device hdevice, hnode]
  omega

omit ht in
theorem lt_iff (ha : a ≤ coord s.globalShape d) :
    (s.position d device).ult (BitVec.ofNat 32 (a / coord s.localShape d)) = true ↔
      c device < a / coord s.localShape d := by
  rw [BitVec.ult, decide_eq_true_iff, h.position_eq device hdevice, node_toNat h ha]

omit ht in
theorem gt_iff (ha : a ≤ coord s.globalShape d) :
    (BitVec.ofNat 32 (a / coord s.localShape d)).ult (s.position d device) = true ↔
      a / coord s.localShape d < c device := by
  rw [BitVec.ult, decide_eq_true_iff, h.position_eq device hdevice, node_toNat h ha]

omit ht in
theorem le_iff (ha : a ≤ coord s.globalShape d) :
    (BitVec.ofNat 32 (a / coord s.localShape d)).ule (s.position d device) = true ↔
      a / coord s.localShape d ≤ c device := by
  rw [BitVec.ule, decide_eq_true_iff, h.position_eq device hdevice, node_toNat h ha]

omit ht in
theorem eq_iff (ha : a ≤ coord s.globalShape d) :
    (s.position d device == BitVec.ofNat 32 (a / coord s.localShape d)) = true ↔
      c device = a / coord s.localShape d := by
  rw [beq_iff_eq, ← BitVec.toNat_inj, h.position_eq device hdevice, node_toNat h ha]

omit hdevice ht in
theorem size_lt_global : coord s.globalShape d ≠ coord s.localShape d := by
  have hpos := h.size_pos
  have hmul := Nat.mul_le_mul_right (coord s.localShape d) h.two_le
  rw [h.global_eq]
  omega

omit ht in
theorem holds_lhs (ht : coord idx d < coord s.localShape d)
    (hentered : s.onlySide = true → ∀ f, s.leftSide d = some f → f device = true) :
    Mask.Holds (s.lhs d) device idx ↔ c device * coord s.localShape d + coord idx d < coord s.lowPads d := by
  have hlow := h.low_le
  have hmod := Nat.mod_lt (coord s.lowPads d) h.size_pos
  rw [position_lt_iff ht]
  by_cases hzero : coord s.lowPads d = 0
  · have hnone : s.lhs d = none := by
      rw [lhs]
      simp only [if_pos hzero]
    rw [hnone, hzero, Nat.zero_div, Nat.zero_mod]
    exact iff_of_false id (by omega)
  by_cases hdvd : coord s.lowPads d % coord s.localShape d = 0
  · have hside : s.leftSide d = some fun device =>
        (s.position d device).ult (BitVec.ofNat 32 (coord s.lowPads d / coord s.localShape d)) := by
      rw [leftSide]
      simp only [if_neg hzero, if_pos hdvd]
    rw [lhs]
    simp only [if_neg hzero, if_pos hdvd]
    by_cases honly : s.onlySide = true
    · have hlt := (lt_iff h hdevice hlow).mp (hentered honly _ hside)
      simp only [if_pos honly, Mask.Holds, true_iff]
      exact .inl hlt
    · simp only [if_neg honly, Mask.Holds, lt_iff h hdevice hlow]
      omega
  · have hside : s.leftSide d = some fun device =>
        (s.position d device).ule (BitVec.ofNat 32 (coord s.lowPads d / coord s.localShape d)) := by
      rw [leftSide]
      simp only [if_neg hzero, if_neg hdvd]
    have hindex : (BitVec.ofNat 32 (coord idx d)).ult
        (BitVec.ofNat 32 (coord s.lowPads d % coord s.localShape d)) = true ↔
          coord idx d < coord s.lowPads d % coord s.localShape d := by
      rw [BitVec.ult, decide_eq_true_iff, index_toNat h ht, index_toNat h hmod]
    have hsmall : coord s.lowPads d < coord s.localShape d →
        coord s.lowPads d / coord s.localShape d = 0 := fun hlt => Nat.div_eq_of_lt hlt
    rw [lhs]
    simp only [if_neg hzero, if_neg hdvd, Mask.Holds, Bool.or_eq_true, Bool.and_eq_true, hindex,
      eq_iff h hdevice hlow, lt_iff h hdevice hlow, decide_eq_true_eq, size_lt_global h, false_or,
      Bool.not_eq_true', decide_eq_false_iff_not]
    by_cases honly : s.onlySide = true
    · have hle := hentered honly _ hside
      rw [BitVec.ule, decide_eq_true_iff, h.position_eq device hdevice, node_toNat h hlow] at hle
      simp only [honly, true_or, and_true]
      omega
    · simp only [honly, Bool.false_eq_true, false_or]
      omega

omit ht in
theorem holds_rhs (ht : coord idx d < coord s.localShape d)
    (hentered : s.onlySide = true → ∀ f, s.rightSide d = some f → f device = true) :
    Mask.Holds (s.rhs d) device idx ↔ coord s.highPads d ≠ 0 ∧
      s.startIdx d ≤ c device * coord s.localShape d + coord idx d := by
  have hmod := Nat.mod_lt (s.startIdx d) h.size_pos
  rw [← not_lt, position_lt_iff ht]
  by_cases hzero : coord s.highPads d = 0
  · have hnone : s.rhs d = none := by
      rw [rhs]
      simp only [if_pos hzero]
    rw [hnone]
    exact iff_of_false id fun hright => hright.1 hzero
  have hstart := h.start_le hzero
  have hside : s.rightSide d = some fun device =>
      (BitVec.ofNat 32 (s.startIdx d / coord s.localShape d)).ule (s.position d device) := by
    rw [rightSide]
    simp only [if_neg hzero]
  by_cases hdvd : s.startIdx d % coord s.localShape d = 0
  · rw [rhs]
    simp only [if_neg hzero, if_pos hdvd]
    by_cases honly : s.onlySide = true
    · have hle := (le_iff h hdevice hstart).mp (hentered honly _ hside)
      simp only [if_pos honly, Mask.Holds, true_iff]
      omega
    · simp only [if_neg honly, Mask.Holds, le_iff h hdevice hstart]
      omega
  · have hindex : (BitVec.ofNat 32 (s.startIdx d % coord s.localShape d)).ule
        (BitVec.ofNat 32 (coord idx d)) = true ↔ s.startIdx d % coord s.localShape d ≤ coord idx d := by
      rw [BitVec.ule, decide_eq_true_iff, index_toNat h ht, index_toNat h hmod]
    have hnodes : coord s.globalShape d / coord s.localShape d = n := by
      rw [h.global_eq, Nat.mul_div_cancel _ h.size_pos]
    have hlt := h.position_lt device hdevice
    rw [rhs]
    simp only [if_neg hzero, if_neg hdvd, Mask.Holds, Bool.or_eq_true, Bool.and_eq_true, hindex,
      eq_iff h hdevice hstart, gt_iff h hdevice hstart, decide_eq_true_eq, size_lt_global h, false_or,
      Bool.not_eq_true', decide_eq_false_iff_not]
    have hlast : ((coord s.globalShape d : Int) / coord s.localShape d) = n := by
      rw [← Int.natCast_ediv, hnodes]
    rw [hlast]
    by_cases honly : s.onlySide = true
    · have hle := (le_iff h hdevice hstart).mp (hentered honly _ hside)
      simp only [honly, true_or, and_true]
      omega
    · simp only [honly, Bool.false_eq_true, false_or]
      omega

end

/-! ### The masks -/

theorem or_eq {a b : Option Mask} (ha : Mask.isEntry a = false) (hb : Mask.isEntry b = false) :
    ∃ m, Mask.or a b = some m ∧ (a ≠ none ∨ b ≠ none → m ≠ none) ∧
      ∀ device idx, Mask.Holds m device idx ↔ Mask.Holds a device idx ∨ Mask.Holds b device idx := by
  cases a with
  | none => exact ⟨b, rfl, fun h => h.resolve_left fun h => h rfl, fun _ _ => ⟨.inr, fun h => h.resolve_left id⟩⟩
  | some a =>
    cases a with
    | entry => cases ha
    | positions f =>
      cases b with
      | none => exact ⟨_, rfl, fun _ => nofun, fun _ _ => ⟨.inl, fun h => h.resolve_right id⟩⟩
      | some b =>
        cases b with
        | entry => cases hb
        | positions g => exact ⟨_, rfl, fun _ => nofun, fun _ _ => by simp only [Mask.Holds, Bool.or_eq_true]⟩

theorem holds_of_isEntry (h : Mask.isEntry mask = true) (device : Nat) (idx : List Nat) :
    mask ≠ none ∧ Mask.Holds mask device idx := by
  cases mask with
  | none => cases h
  | some mask =>
    cases mask with
    | entry => exact ⟨nofun, trivial⟩
    | positions f => cases h

theorem multiIdxStep_eq (a b : Option Mask) :
    ∃ m, multiIdxStep a b = some m ∧ (a ≠ none ∨ b ≠ none → m ≠ none) ∧
      ∀ device idx, Mask.Holds m device idx ↔ Mask.Holds a device idx ∨ Mask.Holds b device idx := by
  rw [multiIdxStep]
  by_cases hb : Mask.isEntry b = true
  · refine ⟨_, if_pos (.inl hb), fun _ => nofun, fun device idx => ?_⟩
    exact iff_of_true trivial (.inr (holds_of_isEntry hb device idx).2)
  by_cases ha : Mask.isEntry a = true
  · refine ⟨_, if_pos (.inr ha), fun _ => nofun, fun device idx => ?_⟩
    exact iff_of_true trivial (.inl (holds_of_isEntry ha device idx).2)
  rw [if_neg (not_or.mpr ⟨hb, ha⟩)]
  exact or_eq (Bool.not_eq_true _ ▸ ha) (Bool.not_eq_true _ ▸ hb)

section

variable {s : Select} {d n count : Nat} {c : Nat → Nat}

theorem lhs_eq_none_iff : s.lhs d = none ↔ coord s.lowPads d = 0 := by
  by_cases hzero : coord s.lowPads d = 0
  · refine iff_of_true ?_ hzero
    rw [lhs]
    exact if_pos hzero
  · refine iff_of_false ?_ hzero
    rw [lhs]
    simp only [if_neg hzero]
    split
    · split <;> exact some_ne_none _
    · exact some_ne_none _

theorem rhs_eq_none_iff : s.rhs d = none ↔ coord s.highPads d = 0 := by
  by_cases hzero : coord s.highPads d = 0
  · refine iff_of_true ?_ hzero
    rw [rhs]
    exact if_pos hzero
  · refine iff_of_false ?_ hzero
    rw [rhs]
    simp only [if_neg hzero]
    split
    · split <;> exact some_ne_none _
    · exact some_ne_none _

theorem leftSide_eq_none_iff : s.leftSide d = none ↔ coord s.lowPads d = 0 := by
  by_cases hzero : coord s.lowPads d = 0
  · refine iff_of_true ?_ hzero
    rw [leftSide]
    exact if_pos hzero
  · refine iff_of_false ?_ hzero
    rw [leftSide]
    simp only [if_neg hzero]
    split <;> exact some_ne_none _

theorem rightSide_eq_none_iff : s.rightSide d = none ↔ coord s.highPads d = 0 := by
  by_cases hzero : coord s.highPads d = 0
  · refine iff_of_true ?_ hzero
    rw [rightSide]
    exact if_pos hzero
  · refine iff_of_false ?_ hzero
    rw [rightSide]
    simp only [if_neg hzero]
    exact some_ne_none _

theorem isEntry_lhs (honly : s.onlySide = false) : Mask.isEntry (s.lhs d) = false := by
  rw [lhs]
  simp only [honly, Bool.false_eq_true, if_false]
  split
  · rfl
  · split <;> rfl

theorem isEntry_rhs (honly : s.onlySide = false) : Mask.isEntry (s.rhs d) = false := by
  rw [rhs]
  simp only [honly, Bool.false_eq_true, if_false]
  split
  · rfl
  · split <;> rfl

theorem onlySide_eq_false (hd : d ∈ s.updatedShardedDims) (hlow : coord s.lowPads d ≠ 0)
    (hhigh : coord s.highPads d ≠ 0) : s.onlySide = false := by
  obtain ⟨f, hf⟩ := ne_none_iff_exists'.mp (leftSide_eq_none_iff.not.mpr hlow)
  obtain ⟨g, hg⟩ := ne_none_iff_exists'.mp (rightSide_eq_none_iff.not.mpr hhigh)
  obtain ⟨before, after, heq⟩ := append_of_mem hd
  have hlen : s.sides.length = 1 → False := by
    rw [sides, heq, flatMap_append, flatMap_cons, sidesOf, hf, hg]
    simp only [length_append, toList_some, length_cons, length_nil]
    omega
  rw [onlySide, beq_eq_false_iff_ne]
  exact hlen

theorem inOperand_eq (h : s.DimOk d n count c) (hd : d ∈ s.updatedShardedDims) :
    ∃ m, s.inOperand d = some m ∧ m ≠ none ∧ ∀ device < count, ∀ idx,
      coord idx d < coord s.localShape d → (s.onlySide = true → ∀ f ∈ s.sides, f device = true) →
      (Mask.Holds m device idx ↔ s.InOperand d (c device * coord s.localShape d + coord idx d)) := by
  have hleft : ∀ f, s.leftSide d = some f → f ∈ s.sides := fun f hf => by
    refine mem_flatMap.mpr ⟨d, hd, mem_append_left _ ?_⟩
    rw [hf]
    exact mem_cons_self
  have hright : ∀ f, s.rightSide d = some f → f ∈ s.sides := fun f hf => by
    refine mem_flatMap.mpr ⟨d, hd, mem_append_right _ ?_⟩
    rw [hf]
    exact mem_cons_self
  have hlhs : ∀ device < count, ∀ idx, coord idx d < coord s.localShape d →
      (s.onlySide = true → ∀ f ∈ s.sides, f device = true) → (Mask.Holds (s.lhs d) device idx ↔ _) :=
    fun device hdevice idx ht hentered =>
      holds_lhs h hdevice ht fun honly f hf => hentered honly f (hleft f hf)
  have hrhs : ∀ device < count, ∀ idx, coord idx d < coord s.localShape d →
      (s.onlySide = true → ∀ f ∈ s.sides, f device = true) → (Mask.Holds (s.rhs d) device idx ↔ _) :=
    fun device hdevice idx ht hentered =>
      holds_rhs h hdevice ht fun honly f hf => hentered honly f (hright f hf)
  rw [inOperand]
  by_cases hlow : coord s.lowPads d = 0
  -- Only the right test.
  · have hnone := lhs_eq_none_iff.mpr hlow
    rw [hnone]
    refine ⟨s.rhs d, rfl, rhs_eq_none_iff.not.mpr (h.padded.resolve_left fun h => h hlow), ?_⟩
    intro device hdevice idx ht hentered
    rw [hrhs device hdevice idx ht hentered, InOperand, hlow]
    exact ⟨.inr, fun hin => hin.resolve_left (Nat.not_lt_zero _)⟩
  by_cases hhigh : coord s.highPads d = 0
  -- Only the left test.
  · have hnone := rhs_eq_none_iff.mpr hhigh
    have hor : ∀ m : Option Mask, Mask.or m none = some m := by
      intro m
      cases m with
      | none | some m => rfl
    rw [hnone, hor, ite_self]
    refine ⟨s.lhs d, rfl, lhs_eq_none_iff.not.mpr hlow, ?_⟩
    intro device hdevice idx ht hentered
    rw [hlhs device hdevice idx ht hentered, InOperand]
    exact ⟨.inl, fun hin => hin.resolve_right fun hright => hright.1 hhigh⟩
  · have honly := onlySide_eq_false hd hlow hhigh
    rw [isEntry_lhs honly, if_neg Bool.false_ne_true]
    obtain ⟨m, hm, hne, hholds⟩ := or_eq (isEntry_lhs (d := d) honly) (isEntry_rhs (d := d) honly)
    refine ⟨m, hm, hne (.inl (lhs_eq_none_iff.not.mpr hlow)), ?_⟩
    intro device hdevice idx ht hentered
    rw [hholds, hlhs device hdevice idx ht hentered, hrhs device hdevice idx ht hentered, InOperand]

theorem foldlM_multiIdxStep {P : Nat → Nat → List Nat → Prop} {Q : Nat → List Nat → Prop}
    {dims : List Nat} (hdims : ∀ d ∈ dims, ∃ m, s.inOperand d = some m ∧ m ≠ none ∧
      ∀ device idx, Q device idx → (Mask.Holds m device idx ↔ P d device idx)) (acc : Option Mask) :
    ∃ m, dims.foldlM (fun multiIdx d =>
        (s.inOperand d).bind fun inOperand => multiIdxStep multiIdx inOperand) acc = some m ∧
      (acc ≠ none ∨ dims ≠ [] → m ≠ none) ∧ ∀ device idx, Q device idx →
        (Mask.Holds m device idx ↔ Mask.Holds acc device idx ∨ ∃ d ∈ dims, P d device idx) := by
  induction dims generalizing acc with
  | nil =>
    refine ⟨acc, rfl, fun hne => hne.resolve_right fun hnil => hnil rfl, fun device idx _ => ?_⟩
    exact ⟨.inl, fun hor => hor.resolve_right fun ⟨_, hmem, _⟩ => absurd hmem not_mem_nil⟩
  | cons d dims ih =>
    obtain ⟨m, hm, hne, hholds⟩ := hdims d mem_cons_self
    obtain ⟨step, hstep, hstepNe, hstepHolds⟩ := multiIdxStep_eq acc m
    obtain ⟨r, hr, hrNe, hrHolds⟩ := ih (fun d hd => hdims d (mem_cons_of_mem _ hd)) step
    refine ⟨r, ?_, fun _ => hrNe (.inl (hstepNe (.inr hne))), fun device idx hq => ?_⟩
    · rw [foldlM_cons, hm, bind_some, hstep]
      exact hr
    · rw [hrHolds device idx hq, hstepHolds, hholds device idx hq, exists_mem_cons_iff, or_assoc]

end

/-! ### The local program -/

variable {innerOperand innerUpdate : Tensor (Nat → α)}

theorem selectMask_eq (hshape : innerUpdate.shape = innerOperand.shape) (hmask : mask ≠ none) :
    ∃ newV, selectMask innerOperand innerUpdate mask = some newV ∧ newV.shape = innerOperand.shape ∧
      ∀ idx device, (Mask.Holds mask device idx → newV.get idx device = innerOperand.get idx device) ∧
        (¬Mask.Holds mask device idx → newV.get idx device = innerUpdate.get idx device) := by
  cases mask with
  | none => exact absurd rfl hmask
  | some mask =>
    cases mask with
    | entry => exact ⟨innerOperand, rfl, rfl, fun _ _ => ⟨fun _ => rfl, fun h => absurd trivial h⟩⟩
    | positions f =>
      refine ⟨_, if_pos hshape.symm, rfl, fun idx device => ⟨fun h => ?_, fun h => ?_⟩⟩
      · exact if_pos h
      · exact if_neg h

section

variable {s : Select} {count : Nat} {ns : Nat → Nat} {c : Nat → Nat → Nat}

theorem mem_sides_of_inOperand (h : ∀ d ∈ s.updatedShardedDims, s.DimOk d (ns d) count (c d)) {device d : Nat}
    (hdevice : device < count) (hd : d ∈ s.updatedShardedDims) (ht : coord idx d < coord s.localShape d)
    (hin : s.InOperand d (c d device * coord s.localShape d + coord idx d)) :
    s.mayContainOperandData device = true := by
  rw [mayContainOperandData, List.any_eq_true]
  obtain hlt | ⟨hhigh, hle⟩ := hin
  · obtain ⟨f, hf, htrue⟩ := leftSide_of_lt (h d hd) hdevice ht hlt
    refine ⟨f, mem_flatMap.mpr ⟨d, hd, mem_append_left _ ?_⟩, htrue⟩
    rw [hf]
    exact mem_cons_self
  · obtain ⟨f, hf, htrue⟩ := rightSide_of_le (h d hd) hdevice ht hhigh hle
    refine ⟨f, mem_flatMap.mpr ⟨d, hd, mem_append_right _ ?_⟩, htrue⟩
    rw [hf]
    exact mem_cons_self

theorem innerUpdateVal_eq (hlen : s.lowPads.length = innerOperand.shape.length)
    (hshape : innerUpdate.shape = innerOperand.shape) :
    ∃ y, s.innerUpdateVal innerOperand innerUpdate = some y ∧ Same y innerUpdate := by
  rw [innerUpdateVal]
  split
  · exact dynamicUpdateSlice_full (by rw [newStarts, length_mapIdx, hlen]) hshape
  · exact ⟨innerUpdate, rfl, Same.refl _⟩

theorem select_unsharded (hdims : s.updatedShardedDims = []) (hlen : s.lowPads.length = innerOperand.shape.length)
    (hshape : innerUpdate.shape = innerOperand.shape) :
    ∃ locals, s.multiDimensionalSelect innerOperand innerUpdate = some locals ∧ Same locals innerUpdate := by
  obtain ⟨y, hy, hsame⟩ := innerUpdateVal_eq hlen hshape
  refine ⟨y, ?_, hsame⟩
  rw [multiDimensionalSelect, hy]
  exact if_pos hdims

theorem select_eq (h : ∀ d ∈ s.updatedShardedDims, s.DimOk d (ns d) count (c d)) (hdims : s.updatedShardedDims ≠ [])
    (hlen : s.lowPads.length = innerOperand.shape.length) (hshape : innerUpdate.shape = innerOperand.shape)
    (hlocal : ∀ idx ∈ indices innerOperand.shape, ∀ d ∈ s.updatedShardedDims, coord idx d < coord s.localShape d) :
    ∃ locals, s.multiDimensionalSelect innerOperand innerUpdate = some locals ∧
      locals.shape = innerOperand.shape ∧ ∀ idx ∈ indices innerOperand.shape, ∀ device < count, locals.get idx device =
          if ∃ d ∈ s.updatedShardedDims, s.InOperand d (c d device * coord s.localShape d + coord idx d) then
            innerOperand.get idx device
          else innerUpdate.get idx device := by
  obtain ⟨update, hupd, hsame⟩ := innerUpdateVal_eq hlen hshape
  have hmasks : ∀ d ∈ s.updatedShardedDims, ∃ m, s.inOperand d = some m ∧ m ≠ none ∧
      ∀ device idx, (device < count ∧ (∀ d ∈ s.updatedShardedDims, coord idx d < coord s.localShape d) ∧
        (s.onlySide = true → ∀ f ∈ s.sides, f device = true)) →
        (Mask.Holds m device idx ↔ s.InOperand d (c d device * coord s.localShape d + coord idx d)) := by
    intro d hd
    obtain ⟨m, hm, hne, hholds⟩ := inOperand_eq (h d hd) hd
    refine ⟨m, hm, hne, fun device idx hin => ?_⟩
    exact hholds device hin.1 idx (hin.2.1 d hd) hin.2.2
  obtain ⟨mask, hmask, hne, hholds⟩ := foldlM_multiIdxStep hmasks none
  have hne := hne (.inr hdims)
  obtain ⟨newV, hnewV, hnewShape, hnew⟩ :=
    selectMask_eq (hsame.shape_eq.trans hshape) hne
  have hsides : s.sides ≠ [] := by
    obtain ⟨d, dims, heq⟩ := exists_cons_of_ne_nil hdims
    intro hnil
    have hd : d ∈ s.updatedShardedDims := heq ▸ mem_cons_self
    have hempty := flatMap_eq_nil_iff.mp hnil d hd
    rw [sidesOf, append_eq_nil_iff, toList_eq_nil_iff, toList_eq_nil_iff,
      leftSide_eq_none_iff, rightSide_eq_none_iff] at hempty
    exact (h d hd).padded.elim (fun hlow => hlow hempty.1) fun hhigh => hhigh hempty.2
  have hif : ¬(s.sides = [] ∨ ∃ d ∈ s.updatedShardedDims, 2 ^ 32 < coord s.localShape d) := by
    intro hor
    obtain hnil | ⟨d, hd, hlarge⟩ := hor
    · exact hsides hnil
    · exact absurd (h d hd).size_le (Nat.not_le.mpr hlarge)
  refine ⟨⟨newV.shape, fun idx device => if s.mayContainOperandData device then newV.get idx device
    else update.get idx device⟩, ?_, hnewShape, fun idx hidx device hdevice => ?_⟩
  · rw [multiDimensionalSelect, hupd]
    refine (if_neg hdims).trans ((if_neg hif).trans ?_)
    rw [multiIdx, hmask, bind_some, hnewV, bind_some]
    exact if_pos (hnewShape.trans (hsame.shape_eq.trans hshape).symm)
  · have hupdateGet : update.get idx device = innerUpdate.get idx device :=
      congrFun (hsame.get_eq idx (by rwa [hsame.shape_eq, hshape])) device
    by_cases hmay : s.mayContainOperandData device = true
    · have hentered : s.onlySide = true → ∀ f ∈ s.sides, f device = true := by
        intro honly f hf
        obtain ⟨g, hg⟩ := length_eq_one_iff.mp (beq_iff_eq.mp honly)
        rw [mayContainOperandData, hg, any_cons, any_nil, Bool.or_false] at hmay
        rw [hg, mem_singleton] at hf
        rwa [hf]
      have hiff := hholds device idx ⟨hdevice, hlocal idx hidx, hentered⟩
      refine (if_pos hmay).trans ?_
      by_cases hin : ∃ d ∈ s.updatedShardedDims, s.InOperand d (c d device * coord s.localShape d + coord idx d)
      · rw [if_pos hin, (hnew idx device).1 (hiff.mpr (.inr hin))]
      · rw [if_neg hin, (hnew idx device).2 fun hmask => hin ((hiff.mp hmask).resolve_left id), hupdateGet]
    · have hout : ¬∃ d ∈ s.updatedShardedDims, s.InOperand d (c d device * coord s.localShape d + coord idx d) := by
        intro ⟨d, hd, hin⟩
        exact hmay (mem_sides_of_inOperand h hdevice hd (hlocal idx hidx d hd) hin)
      rw [if_neg hout]
      exact (if_neg hmay).trans hupdateGet

theorem of_select_eq_some {innerOperand innerUpdate locals : Tensor (Nat → α)}
    (hlocals : s.multiDimensionalSelect innerOperand innerUpdate = some locals) (hdims : s.updatedShardedDims ≠ []) :
    s.sides ≠ [] ∧ ∀ d ∈ s.updatedShardedDims, coord s.localShape d ≤ 2 ^ 32 := by
  rw [multiDimensionalSelect] at hlocals
  obtain ⟨update, -, hlocals⟩ := bind_eq_some_iff.mp hlocals
  rw [if_neg hdims] at hlocals
  split at hlocals
  · cases hlocals
  · rename_i hor
    obtain ⟨hsides, hsizes⟩ := not_or.mp hor
    refine ⟨hsides, fun d hd => ?_⟩
    by_contra hlarge
    exact hsizes ⟨d, hd, Nat.lt_of_not_le hlarge⟩

end

end Select

end EnzymeJax
