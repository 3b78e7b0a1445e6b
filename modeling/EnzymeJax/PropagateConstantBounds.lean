import Mathlib.Tactic

/-!
# Bounds of launches

What `PropagateConstantBounds` writes on a function that is launched as a kernel: the largest launch
sizes that its callers have as constants, and the smallest buffers that they pass.
-/

namespace EnzymeJax.PropagateConstantBounds

open List

inductive ElementType where
  | int (width : Nat)
  | float (width : Nat)
  | complex (elementType : ElementType)

def getSizeInBytes : ElementType → Nat
  | .int width => if width = 1 then 1 else width / 8
  | .float width => width / 8
  | .complex elementType => getSizeInBytes elementType * 2

/-- The bytes that an element takes in a buffer. -/
def ElementType.bytes : ElementType → Nat
  | .int width | .float width => (width + 7) / 8
  | .complex elementType => elementType.bytes * 2

/-- Only a ranked tensor has a shape. -/
structure OperandType where
  shape : Option (List Nat)
  elementType : ElementType

def OperandType.getNumElements (type : OperandType) : Nat := (type.shape.map List.prod).getD 0

def getMemRefSizeInBytes (type : OperandType) : Int :=
  type.getNumElements * getSizeInBytes type.elementType

inductive Dim where
  | block
  | grid
  deriving DecidableEq

inductive Axis where
  | x
  | y
  | z
  deriving DecidableEq

/-- A launch size is a constant or a value at run time. -/
inductive CallOp where
  | kernelCall (size : Dim → Axis → Option Int) (operands : Nat → OperandType)
  | jitCall (operands : Nat → OperandType)

def CallOp.size : CallOp → Dim → Axis → Option Int
  | kernelCall size _ => size
  | jitCall _ => fun _ _ => none

def CallOp.operands : CallOp → Nat → OperandType
  | kernelCall _ operands | jitCall operands => operands

def CallOp.isKernelCall : CallOp → Bool
  | kernelCall _ _ => true
  | jitCall _ => false

/-- The calls of a function: those that launch it first. -/
def funcToKernelMap {S : Type} [DecidableEq S] (calls : List (S × CallOp)) (callee : S) : List CallOp :=
  let callers := (calls.filter fun call => call.1 = callee).map Prod.snd
  callers.filter CallOp.isKernelCall ++ callers.filter fun caller => !caller.isKernelCall

structure ThreadAndBlockInfo where
  threadId : Axis → Int
  blockId : Axis → Int
  blockDim : Axis → Int
  gridDim : Axis → Int

/-- `std::numeric_limits<int64_t>::min()`. -/
def unknown : Int := -2 ^ 63

def getRange (caller : CallOp) : ThreadAndBlockInfo where
  threadId a := (caller.size .block a).getD unknown
  blockId a := (caller.size .grid a).getD unknown
  blockDim a := (caller.size .block a).getD unknown
  gridDim a := (caller.size .grid a).getD unknown

def ThreadAndBlockInfo.join (i j : ThreadAndBlockInfo) : ThreadAndBlockInfo where
  threadId a := max (i.threadId a) (j.threadId a)
  blockId a := max (i.blockId a) (j.blockId a)
  blockDim a := max (i.blockDim a) (j.blockDim a)
  gridDim a := max (i.gridDim a) (j.gridDim a)

def maxRange (callers : List CallOp) : ThreadAndBlockInfo :=
  callers.foldl (fun info caller => info.join (getRange caller))
    ⟨fun _ => unknown, fun _ => unknown, fun _ => unknown, fun _ => unknown⟩

def dereferenceable (callers : List CallOp) (index : Nat) : Option Int :=
  let bytes := callers.foldl (fun m caller => min m (getMemRefSizeInBytes (caller.operands index))) (2 ^ 63 - 1)
  if bytes ≠ 2 ^ 63 - 1 then some bytes else none

inductive Dialect where
  | nvvm
  | gpu

/-- `isId` tells the ids of threads and blocks from the sizes of blocks and grids. -/
structure Op where
  dialect : Dialect
  isId : Bool
  dim : Dim
  axis : Axis

/-- The upper end of the range on an op, and the constant it is replaced by. -/
structure Facts where
  range : Option Int := none
  constant : Option Int := none

-- ranges and constants have 32 bits
def Facts.setConstantRangeAttrIfConstant (facts : Facts) (maxValue : Int) : Facts :=
  if maxValue = unknown then facts else { facts with range := some (maxValue % 2 ^ 32) }

def replaceWithConstantOrSetConstantRangeAttr (maxValue : Int) (hasSingleCaller : Bool) : Facts :=
  if maxValue = unknown then {}
  else if hasSingleCaller then { constant := some (maxValue % 2 ^ 32) }
  else Facts.setConstantRangeAttrIfConstant {} maxValue

def factsOf (callers : List CallOp) (op : Op) : Facts :=
  let maxRange := maxRange callers
  let hasSingleCaller := callers.length == 1
  match op with
  | ⟨_, true, .block, a⟩ => Facts.setConstantRangeAttrIfConstant {} (maxRange.threadId a)
  | ⟨_, true, .grid, a⟩ => Facts.setConstantRangeAttrIfConstant {} (maxRange.blockId a)
  | ⟨.gpu, false, .block, .y⟩ =>
    (replaceWithConstantOrSetConstantRangeAttr (maxRange.blockDim .y) hasSingleCaller).setConstantRangeAttrIfConstant
      (maxRange.threadId .y)
  | ⟨.gpu, false, .grid, .y⟩ =>
    (replaceWithConstantOrSetConstantRangeAttr (maxRange.gridDim .y) hasSingleCaller).setConstantRangeAttrIfConstant
      (maxRange.threadId .y)
  | ⟨_, false, .block, a⟩ => replaceWithConstantOrSetConstantRangeAttr (maxRange.blockDim a) hasSingleCaller
  | ⟨_, false, .grid, a⟩ => replaceWithConstantOrSetConstantRangeAttr (maxRange.gridDim a) hasSingleCaller

def Launches (caller : CallOp) (launch : Dim → Axis → Int) : Prop :=
  ∀ d a, 0 < launch d a ∧ ∀ n, caller.size d a = some n → launch d a = n

def Op.Value (op : Op) (launch : Dim → Axis → Int) (v : Int) : Prop :=
  if op.isId then 0 ≤ v ∧ v < launch op.dim op.axis else v = launch op.dim op.axis

def Facts.Holds (facts : Facts) (v : Int) : Prop :=
  (∀ u, facts.range = some u → 0 ≤ v ∧ v < u) ∧ ∀ c, facts.constant = some c → v = c

def HoldInLaunches (callers : List CallOp) (op : Op) (facts : Facts) : Prop :=
  ∀ caller ∈ callers, ∀ launch, Launches caller launch → ∀ v, op.Value launch v → facts.Holds v

def IsLargest (callers : List CallOp) (d : Dim) (a : Axis) (n : Int) : Prop :=
  (∃ caller ∈ callers, caller.size d a = some n) ∧ ∀ caller ∈ callers, ∀ m, caller.size d a = some m → m ≤ n

/-- No caller has a constant, or the only one has and it fits into 32 bits. -/
def SingleOrNone (callers : List CallOp) (d : Dim) (a : Axis) : Prop :=
  (∀ caller ∈ callers, caller.size d a = none) ∨ ∃ caller n, callers = [caller] ∧ caller.size d a = some n ∧ n < 2 ^ 32

def joined (callers : List CallOp) : Dim → Axis → Int :=
  callers.foldl (fun m caller d a => max (m d a) ((caller.size d a).getD unknown)) fun _ _ => unknown

variable {callers : List CallOp} {d : Dim} {a : Axis}

@[simp] theorem setConstantRangeAttrIfConstant_unknown (facts : Facts) :
    facts.setConstantRangeAttrIfConstant unknown = facts := if_pos rfl

@[simp] theorem replaceWithConstantOrSetConstantRangeAttr_unknown {hasSingleCaller : Bool} :
    replaceWithConstantOrSetConstantRangeAttr unknown hasSingleCaller = {} := if_pos rfl

theorem Facts.holds_empty (v : Int) : Facts.Holds {} v := ⟨by simp, by simp⟩

theorem foldl_max_getRange (m : Dim → Axis → Int) :
    callers.foldl (fun (info : ThreadAndBlockInfo) caller => info.join (getRange caller))
        ⟨m .block, m .grid, m .block, m .grid⟩ =
      let m := callers.foldl (fun m caller d a => max (m d a) ((caller.size d a).getD unknown)) m
      ⟨m .block, m .grid, m .block, m .grid⟩ := by
  induction callers generalizing m with
  | nil => rfl
  | cons caller callers ih => exact ih fun d a => max (m d a) ((caller.size d a).getD unknown)

theorem maxRange_eq : maxRange callers =
    ⟨joined callers .block, joined callers .grid, joined callers .block, joined callers .grid⟩ :=
  foldl_max_getRange fun _ _ => unknown

theorem joined_spec (hpos : ∀ caller ∈ callers, ∀ n, caller.size d a = some n → 0 < n) :
    (∀ caller ∈ callers, caller.size d a = none) ∧ joined callers d a = unknown ∨
      IsLargest callers d a (joined callers d a) ∧ joined callers d a ≠ unknown := by
  have hunknown : unknown < 0 := by decide
  rw [joined]
  induction callers using reverseRecOn with
  | nil => exact .inl ⟨by simp, rfl⟩
  | append_singleton callers caller ih =>
    simp only [foldl_append, foldl_cons, foldl_nil, IsLargest, forall_mem_append,
      forall_mem_singleton] at hpos ih ⊢
    obtain ⟨hpos, hcaller⟩ := hpos
    cases hn : caller.size d a with
    | none =>
      obtain ⟨hnone, hM⟩ | ⟨⟨⟨c, hc, hcM⟩, hle⟩, hM⟩ := ih hpos
      · rw [hM]
        exact .inl ⟨⟨hnone, rfl⟩, rfl⟩
      · have hMpos := hpos c hc _ hcM
        rw [Option.getD_none, max_eq_left (by omega)]
        exact .inr ⟨⟨⟨c, mem_append_left _ hc, hcM⟩, hle, by simp⟩, hM⟩
    | some n =>
      have hn0 := hcaller n hn
      have hself : ∃ c ∈ callers ++ [caller], c.size d a = some n := ⟨caller, by simp, hn⟩
      rw [Option.getD_some]
      simp only [Option.some.injEq, forall_eq'] at ih ⊢
      obtain ⟨hnone, hM⟩ | ⟨⟨⟨c, hc, hcM⟩, hle⟩, hM⟩ := ih hpos
      · rw [hM, max_eq_right (by omega)]
        exact .inr ⟨⟨hself, fun c hc m hm => by simp [hnone c hc] at hm, le_rfl⟩, by omega⟩
      · refine .inr ⟨⟨?_, fun c hc m hm => le_max_of_le_left (hle c hc m hm), le_max_right _ _⟩, by omega⟩
        rcases max_choice _ n with h | h <;> rw [h]
        · exact ⟨c, mem_append_left _ hc, hcM⟩
        · exact hself

theorem exists_launch {caller : CallOp} (hpos : ∀ d a n, caller.size d a = some n → 0 < n) {n : Int} (hn : 0 < n)
    (h : ∀ m, caller.size d a = some m → m = n) : ∃ launch, Launches caller launch ∧ launch d a = n := by
  refine ⟨fun d' a' => if d' = d ∧ a' = a then n else (caller.size d' a').getD 1, fun d' a' => ?_, by simp⟩
  dsimp only
  split
  · rename_i heq
    obtain ⟨rfl, rfl⟩ := heq
    exact ⟨hn, fun m hm => (h m hm).symm⟩
  · cases hm : caller.size d' a' with
    | none => exact ⟨one_pos, by simp⟩
    | some m => exact ⟨hpos d' a' m hm, by simp⟩

theorem forall_launch_iff (hpos : ∀ caller ∈ callers, ∀ d a n, caller.size d a = some n → 0 < n)
    {P : Int → Prop} {N : Int} (hN : 0 < N) (hP : ¬P N) :
    (∀ caller ∈ callers, ∀ launch, Launches caller launch → P (launch d a)) ↔
      ∀ caller ∈ callers, ∃ n, caller.size d a = some n ∧ P n := by
  refine forall₂_congr fun caller hcaller => ?_
  constructor
  · intro h
    cases hn : caller.size d a with
    | none =>
      obtain ⟨launch, hlaunch, hsize⟩ := exists_launch (hpos caller hcaller) hN fun m hm => by cases hn.symm.trans hm
      exact absurd (hsize ▸ h launch hlaunch) hP
    | some n =>
      obtain ⟨launch, hlaunch, hsize⟩ := exists_launch (hpos caller hcaller) (hpos _ hcaller d a n hn)
        fun m hm => by cases hm.symm.trans hn; rfl
      exact ⟨n, rfl, hsize ▸ h launch hlaunch⟩
  · rintro ⟨n, hn, h⟩ launch hlaunch
    rwa [(hlaunch d a).2 n hn]

variable {op : Op} {m : Int}

/-- A range of ids is right where no caller has a larger size, a range of sizes where none has one as large. -/
theorem forall_range_iff (hpos : ∀ caller ∈ callers, ∀ d a n, caller.size d a = some n → 0 < n) {u : Int} :
    (∀ caller ∈ callers, ∀ launch, Launches caller launch → ∀ v, op.Value launch v → 0 ≤ v ∧ v < u) ↔
      ∀ caller ∈ callers, ∃ n, caller.size op.dim op.axis = some n ∧ if op.isId then n ≤ u else n < u := by
  rw [← forall_launch_iff (N := max 1 (u + 1)) hpos (by omega) (by split <;> omega)]
  refine forall₄_congr fun caller _ launch hlaunch => ?_
  have hsize := (hlaunch op.dim op.axis).1
  unfold Op.Value
  split
  · constructor
    · intro h
      have := h (launch op.dim op.axis - 1) (by omega)
      omega
    · intro h v hv
      omega
  · rw [forall_eq]
    omega

/-- What the callers have to have for the facts of an op to hold in every launch. -/
def Uniform (callers : List CallOp) : Op → Prop
  | ⟨_, true, d, a⟩ => (∀ caller ∈ callers, caller.size d a = none) ∨
    ∀ caller ∈ callers, ∃ n, caller.size d a = some n ∧ n < 2 ^ 32
  | ⟨.gpu, false, .block, .y⟩ => ∀ caller ∈ callers, caller.size .block .y = none
  | ⟨.gpu, false, .grid, .y⟩ =>
    (∀ caller ∈ callers, caller.size .block .y = none) ∧ SingleOrNone callers .grid .y ∨
    ∃ b, IsLargest callers .block .y b ∧ ∀ caller ∈ callers, ∃ n, caller.size .grid .y = some n ∧ n < b % 2 ^ 32
  | ⟨_, false, d, a⟩ => SingleOrNone callers d a

section
variable (hpos : ∀ caller ∈ callers, ∀ d a n, caller.size d a = some n → 0 < n)
include hpos

theorem holdInLaunches_iff {facts : Facts} (hconstant : op.isId → facts.constant = none) :
    HoldInLaunches callers op facts ↔
      (∀ u, facts.range = some u → ∀ caller ∈ callers, ∃ n, caller.size op.dim op.axis = some n ∧
        if op.isId then n ≤ u else n < u) ∧
      ∀ c, facts.constant = some c → ∀ caller ∈ callers, caller.size op.dim op.axis = some c := by
  have hconst (c : Int) (hid : ¬op.isId) : (∀ caller ∈ callers, ∀ launch, Launches caller launch →
      ∀ v, op.Value launch v → v = c) ↔ ∀ caller ∈ callers, caller.size op.dim op.axis = some c := by
    have h := forall_launch_iff (d := op.dim) (a := op.axis) (P := (· = c)) (N := max 1 (c + 1)) hpos
      (by omega) (by omega)
    simp only [Op.Value, if_neg hid, forall_eq]
    simpa using h
  constructor
  · intro h
    refine ⟨fun u hu => (forall_range_iff hpos).mp fun caller hc l hl v hv =>
      (h caller hc l hl v hv).1 u hu, fun c hc => (hconst c fun hid => ?_).mp fun caller hcaller l hl v hv =>
      (h caller hcaller l hl v hv).2 c hc⟩
    simp [hconstant hid] at hc
  · rintro ⟨hr, hc⟩ caller hcaller l hl v hv
    refine ⟨fun u hu => (forall_range_iff hpos).mpr (hr u hu) caller hcaller l hl v hv,
      fun c hc' => (hconst c fun hid => ?_).mpr (hc c hc') caller hcaller l hl v hv⟩
    simp [hconstant hid] at hc'

theorem holdInLaunches_replace_iff (op : Op) (hid : op.isId = false) :
    HoldInLaunches callers op (replaceWithConstantOrSetConstantRangeAttr (joined callers op.dim op.axis)
      (callers.length == 1)) ↔ SingleOrNone callers op.dim op.axis := by
  rw [holdInLaunches_iff hpos (by simp [hid])]
  have hspec := joined_spec fun caller hc n => hpos caller hc op.dim op.axis n
  generalize joined callers op.dim op.axis = M at hspec
  rw [replaceWithConstantOrSetConstantRangeAttr]
  obtain ⟨hnone, hM⟩ | ⟨⟨⟨caller, hcaller, hcM⟩, hle⟩, hM⟩ := hspec
  · rw [if_pos hM]
    exact iff_of_true ⟨by simp, by simp⟩ (.inl hnone)
  have hMpos := hpos caller hcaller _ _ _ hcM
  rw [if_neg hM]
  split
  · rename_i hsingle
    obtain ⟨c, rfl⟩ := length_eq_one_iff.mp (eq_of_beq hsingle)
    cases mem_singleton.mp hcaller
    simp [SingleOrNone, hcM]
    omega
  · rename_i hsingle
    refine iff_of_false (fun h => ?_) ?_
    · obtain ⟨n, hn, hlt⟩ := h.1 _ (by rw [Facts.setConstantRangeAttrIfConstant, if_neg hM]) caller hcaller
      cases hcM.symm.trans hn
      rw [hid, if_neg Bool.false_ne_true] at hlt
      omega
    · rintro (hnone | ⟨c, n, rfl, -⟩)
      · cases hcM.symm.trans (hnone caller hcaller)
      · exact hsingle rfl

theorem holdInLaunches_set_iff {facts : Facts} (hconstant : op.isId → facts.constant = none)
    (hm : m ≠ unknown) : HoldInLaunches callers op (facts.setConstantRangeAttrIfConstant m) ↔
      (∀ caller ∈ callers, ∃ n, caller.size op.dim op.axis = some n ∧
        if op.isId then n ≤ m % 2 ^ 32 else n < m % 2 ^ 32) ∧
      ∀ c, facts.constant = some c → ∀ caller ∈ callers, caller.size op.dim op.axis = some c := by
  rw [Facts.setConstantRangeAttrIfConstant, if_neg hm, holdInLaunches_iff hpos (by exact hconstant)]
  simp only [Option.some.injEq, forall_eq']

theorem holdInLaunches_id_iff {dialect : Dialect} :
    HoldInLaunches callers ⟨dialect, true, d, a⟩
      (Facts.setConstantRangeAttrIfConstant {} (joined callers d a)) ↔
      Uniform callers ⟨dialect, true, d, a⟩ := by
  have hspec := joined_spec fun caller hc n => hpos caller hc d a n
  generalize joined callers d a = M at hspec
  obtain ⟨hnone, rfl⟩ | ⟨⟨⟨caller, hcaller, hcM⟩, hle⟩, hM⟩ := hspec
  · exact iff_of_true (fun _ _ _ _ v _ => by simpa using Facts.holds_empty v) (.inl hnone)
  have hMpos := hpos caller hcaller _ _ _ hcM
  rw [holdInLaunches_set_iff hpos (fun _ => rfl) hM]
  constructor
  · intro h
    refine .inr fun c hc => ?_
    obtain ⟨n, hn, -⟩ := h.1 c hc
    obtain ⟨M', hM', hle'⟩ := h.1 caller hcaller
    cases hcM.symm.trans hM'
    have := hle c hc n hn
    exact ⟨n, hn, by rw [if_pos rfl] at hle'; omega⟩
  · rintro (hnone | h)
    · cases hcM.symm.trans (hnone caller hcaller)
    · obtain ⟨M', hM', hlt⟩ := h caller hcaller
      cases hcM.symm.trans hM'
      refine ⟨fun c hc => ?_, by simp⟩
      obtain ⟨n, hn, -⟩ := h c hc
      exact ⟨n, hn, by rw [if_pos rfl, Int.emod_eq_of_lt hMpos.le hlt]; exact hle c hc n hn⟩

theorem holdInLaunches_gpu_block_iff : HoldInLaunches callers ⟨.gpu, false, .block, .y⟩
    (factsOf callers ⟨.gpu, false, .block, .y⟩) ↔ Uniform callers ⟨.gpu, false, .block, .y⟩ := by
  rw [factsOf, maxRange_eq]
  dsimp only
  have hspec := joined_spec fun caller hc n => hpos caller hc .block .y n
  generalize joined callers .block .y = M at hspec
  obtain ⟨hnone, rfl⟩ | ⟨⟨⟨caller, hcaller, hcM⟩, hle⟩, hM⟩ := hspec
  · exact iff_of_true (fun _ _ _ _ v _ => by simpa using Facts.holds_empty v) hnone
  rw [holdInLaunches_set_iff hpos (by simp) hM]
  refine iff_of_false (fun h => ?_) fun hnone => ?_
  · obtain ⟨n, hn, hlt⟩ := h.1 caller hcaller
    cases hcM.symm.trans hn
    have := hpos caller hcaller _ _ _ hcM
    rw [if_neg Bool.false_ne_true] at hlt
    omega
  · cases hcM.symm.trans (hnone caller hcaller)

theorem holdInLaunches_gpu_grid_iff : HoldInLaunches callers ⟨.gpu, false, .grid, .y⟩
    (factsOf callers ⟨.gpu, false, .grid, .y⟩) ↔ Uniform callers ⟨.gpu, false, .grid, .y⟩ := by
  have hdim := holdInLaunches_replace_iff hpos ⟨.gpu, false, .grid, .y⟩ rfl
  rw [factsOf, maxRange_eq]
  dsimp only at hdim ⊢
  have hspec := joined_spec fun caller hc n => hpos caller hc .block .y n
  generalize joined callers .block .y = M at hspec
  obtain ⟨hnone, rfl⟩ | ⟨hlargest, hM⟩ := hspec
  · rw [setConstantRangeAttrIfConstant_unknown, hdim]
    refine ⟨fun h => .inl ⟨hnone, h⟩, ?_⟩
    rintro (⟨-, h⟩ | ⟨b, ⟨⟨c, hc, hb⟩, -⟩, -⟩)
    · exact h
    · cases hb.symm.trans (hnone c hc)
  rw [holdInLaunches_set_iff hpos (by simp) hM]
  refine ⟨fun h => .inr ⟨M, hlargest, h.1⟩, fun h => ?_⟩
  obtain ⟨⟨c, hc, hcM⟩, hle⟩ := hlargest
  obtain ⟨hnone, -⟩ | ⟨b, ⟨⟨c', hc', hb⟩, hle'⟩, h⟩ := h
  · cases hcM.symm.trans (hnone c hc)
  cases le_antisymm (hle c' hc' b hb) (hle' c hc M hcM)
  refine ⟨h, fun k hk caller hcaller => ?_⟩
  -- a constant there is that of the only caller, which is below the range
  obtain ⟨n, hn, hlt⟩ := h caller hcaller
  rw [replaceWithConstantOrSetConstantRangeAttr] at hk
  obtain ⟨hnone, -⟩ | ⟨⟨⟨c₀, hc₀, hG⟩, -⟩, hGu⟩ := joined_spec fun caller hc n => hpos caller hc .grid .y n
  · cases hn.symm.trans (hnone caller hcaller)
  rw [if_neg hGu] at hk
  split at hk
  · obtain ⟨only, rfl⟩ := length_eq_one_iff.mp (eq_of_beq ‹_›)
    cases mem_singleton.mp hcaller
    cases mem_singleton.mp hc₀
    cases hk
    have := hpos caller hcaller _ _ _ hn
    rw [hn, ← Option.some_inj.mp (hn.symm.trans hG), Int.emod_eq_of_lt this.le (by omega)]
  · rw [Facts.setConstantRangeAttrIfConstant, if_neg hGu] at hk
    cases hk

theorem factsOf_iff (op : Op) : HoldInLaunches callers op (factsOf callers op) ↔ Uniform callers op := by
  obtain ⟨dialect, isId, d, a⟩ := op
  cases isId with
  | true => cases d <;> rw [factsOf, maxRange_eq] <;> exact holdInLaunches_id_iff hpos
  | false =>
    have hdim := holdInLaunches_replace_iff hpos ⟨dialect, false, d, a⟩ rfl
    have hblock := holdInLaunches_gpu_block_iff hpos
    have hgrid := holdInLaunches_gpu_grid_iff hpos
    unfold factsOf at hblock hgrid ⊢
    rw [maxRange_eq] at hblock hgrid ⊢
    cases dialect <;> cases d <;> cases a <;> first | exact hdim | exact hblock | exact hgrid

end

theorem getSizeInBytes_le (elementType : ElementType) : getSizeInBytes elementType ≤ elementType.bytes := by
  induction elementType with
  | int width =>
    simp only [getSizeInBytes, ElementType.bytes]
    split <;> omega
  | float width => exact Nat.div_le_div_right (Nat.le_add_right _ 7)
  | complex elementType ih => exact Nat.mul_le_mul_right 2 ih

def OperandType.bytes (type : OperandType) : Int := type.getNumElements * type.elementType.bytes

theorem foldl_min_le (f : CallOp → Int) : callers.foldl (fun m caller => min m (f caller)) m ≤ m ∧
      ∀ caller ∈ callers, callers.foldl (fun m caller => min m (f caller)) m ≤ f caller := by
  induction callers generalizing m with
  | nil => exact ⟨le_rfl, by simp⟩
  | cons caller callers ih =>
    rw [foldl_cons, forall_mem_cons]
    exact ⟨ih.1.trans (min_le_left _ _), ih.1.trans (min_le_right _ _), ih.2⟩

theorem le_of_dereferenceable {index : Nat} (h : dereferenceable callers index = some m) :
    ∀ caller ∈ callers, m ≤ (caller.operands index).bytes := by
  simp only [dereferenceable, Option.ite_none_right_eq_some] at h
  obtain ⟨-, h⟩ := h
  cases h
  intro caller hcaller
  refine ((foldl_min_le fun caller => getMemRefSizeInBytes (caller.operands index)).2 caller hcaller).trans ?_
  exact Int.mul_le_mul_of_nonneg_left (by exact_mod_cast getSizeInBytes_le _) (by positivity)

/-- The facts written on a function hold in all launches if and only if the callers agree so far that
one constant tells something of all of them, and of a size that it may be, not only that it is below. -/
theorem propagateConstantBounds_iff {S : Type} [DecidableEq S] {calls : List (S × CallOp)} {callee : S}
    {ops : List Op} (hpos : ∀ call ∈ calls, ∀ d a n, call.2.size d a = some n → 0 < n) :
    let callers := funcToKernelMap calls callee
    ((∀ op ∈ ops, HoldInLaunches callers op (factsOf callers op)) ∧ ∀ index m,
      dereferenceable callers index = some m → ∀ caller ∈ callers, m ≤ (caller.operands index).bytes) ↔
      ∀ op ∈ ops, Uniform callers op := by
  intro callers
  have hcallers : ∀ caller ∈ callers, ∀ d a n, caller.size d a = some n → 0 < n := by
    intro caller hcaller
    simp only [callers, funcToKernelMap, mem_append, mem_filter, ← and_or_left] at hcaller
    obtain ⟨call, hcall, rfl⟩ := mem_map.mp hcaller.1
    exact hpos call (mem_filter.mp hcall).1
  rw [and_iff_left fun index m h => le_of_dereferenceable h]
  exact forall₂_congr fun op _ => factsOf_iff hcallers op

/-- One caller with four threads and four blocks in each direction. -/
def fourThreads : CallOp := .kernelCall (fun _ _ => some 4) fun _ => ⟨some [8], .float 64⟩

theorem propagateConstantBounds_iff_fourThreads :
    HoldInLaunches [fourThreads] ⟨.nvvm, true, .block, .x⟩ ⟨some 4, none⟩ := by
  refine ((@propagateConstantBounds_iff Unit _ [((), fourThreads)] () [⟨.nvvm, true, .block, .x⟩] ?_).mpr ?_).1 _
    mem_cons_self
  · simp [fourThreads, CallOp.size]
  · simp [Uniform, fourThreads, CallOp.size, funcToKernelMap, CallOp.isKernelCall]

def unknownThreads : CallOp := .kernelCall (fun _ _ => none) fun _ => ⟨some [8], .float 64⟩

theorem not_propagateConstantBounds : ¬∀ (calls : List (Unit × CallOp)) (ops : List Op),
    (∀ call ∈ calls, ∀ d a n, call.2.size d a = some n → 0 < n) →
      ∀ op ∈ ops, HoldInLaunches (funcToKernelMap calls ()) op (factsOf (funcToKernelMap calls ()) op) := by
  intro h
  have hold := h [((), fourThreads), ((), unknownThreads)] [⟨.nvvm, true, .block, .x⟩]
    (by simp [fourThreads, unknownThreads, CallOp.size]) _ mem_cons_self unknownThreads
    (.tail _ mem_cons_self) (fun _ _ => 8) (fun _ _ => ⟨by norm_num, by simp [unknownThreads, CallOp.size]⟩) 5
    (by simp [Op.Value])
  exact absurd (hold.1 4 (by decide)).2 (by decide)

end EnzymeJax.PropagateConstantBounds
