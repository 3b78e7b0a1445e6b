import EnzymeJax.Library.Spmd

/-!
# The pairs of a shift along an axis of the mesh

`generateShiftPairs` moves every device along one axis. A pair says that the second device gets its value from the
first.
-/

namespace EnzymeJax

open Tensor List Option

/-! ### Device numbers -/

def computeMeshStrides : List Nat → List Nat
  | [] => []
  | [_] => [1]
  | _ :: m :: shape =>
    let strides := computeMeshStrides (m :: shape)
    strides.headD 1 * m :: strides

def meshIndex : List Nat → Nat → List Nat
  | [], _ => []
  | stride :: strides, tmp => tmp / stride :: meshIndex strides (tmp % stride)

/-- The coordinate of the other device of the pair, if there is a pair. -/
def dstCoord (axisSize srcCoord : Nat) (leftToRight onlyEdges splitHalfComm : Bool) : Option Nat :=
  let midPoint := axisSize / 2
  let left := (srcCoord + axisSize - 1) % axisSize
  let right := (srcCoord + 1) % axisSize
  if splitHalfComm then
    if srcCoord < midPoint then if midPoint ≤ left then none else some left
    else if right < midPoint then none else some right
  else if leftToRight then
    if onlyEdges ∧ ¬(srcCoord = axisSize - 1 ∧ right = 0) then none else some right
  else if onlyEdges ∧ ¬(srcCoord = 0 ∧ left = axisSize - 1) then none else some left

def generateShiftPairs (meshShape : List Nat) (axisIndex : Nat)
    (leftToRight onlyEdges splitHalfComm : Bool) : List (Nat × Nat) :=
  let strides := computeMeshStrides meshShape
  (List.range meshShape.prod).filterMap fun srcId =>
    let idx := meshIndex strides srcId
    (dstCoord (coord meshShape axisIndex) (coord idx axisIndex) leftToRight onlyEdges
      splitHalfComm).map fun dst =>
        ((List.zipWith (· * ·) (idx.set axisIndex dst) strides).sum, srcId)

theorem computeMeshStrides_cons (n : Nat) (shape : List Nat) :
    computeMeshStrides (n :: shape) = shape.prod :: computeMeshStrides shape := by
  induction shape generalizing n with
  | nil => rfl
  | cons m shape ih =>
    rw [computeMeshStrides, ih m, headD_cons, prod_cons, mul_comm]

theorem meshIndex_eq (shape : List Nat) (k : Nat) :
    meshIndex (computeMeshStrides shape) k = unravel shape k := by
  induction shape generalizing k with
  | nil => rfl
  | cons n shape ih => rw [computeMeshStrides_cons, meshIndex, ih, unravel]

variable {shape : List Nat} {p : Nat × Nat} {α : Type*} {f : List Nat → Nat → Nat → α} {x : Tensor (Nat → α)}

theorem sum_strides {idx : List Nat} (hidx : idx.length = shape.length) :
    (zipWith (· * ·) idx (computeMeshStrides shape)).sum = ravel shape idx := by
  induction shape generalizing idx with
  | nil =>
    rw [length_eq_zero_iff.mp hidx]
    rfl
  | cons n shape ih =>
    obtain ⟨i, idx, rfl⟩ := exists_cons_of_length_eq_add_one hidx
    rw [computeMeshStrides_cons, zipWith_cons_cons, sum_cons, ih (add_right_cancel hidx), ravel]

/-! ### The devices of the pairs -/

/-- The pairs of the devices that a function moves to another coordinate. -/
def movePairs (mesh : Mesh) (a : Nat) (target : Nat → Option Nat) : List (Nat × Nat) :=
  (List.range mesh.prod).filterMap fun device =>
    (target (devicePos mesh a device)).map fun c => (moveAlong mesh a c device, device)

section

variable {mesh : Mesh} {a : Nat} {leftToRight onlyEdges splitHalfComm : Bool} {target : Nat → Option Nat}

theorem generateShiftPairs_eq :
    generateShiftPairs mesh a leftToRight onlyEdges splitHalfComm =
      movePairs mesh a fun c => dstCoord (coord mesh a) c leftToRight onlyEdges splitHalfComm := by
  refine filterMap_congr fun device hdev => ?_
  have hlt := mem_range.mp hdev
  simp only [meshIndex_eq]
  refine congrFun (congrArg Option.map ?_) _
  funext c
  rw [sum_strides, moveAlong]
  rw [length_set, length_of_mem_indices (unravel_mem_indices hlt)]

theorem mem_movePairs : p ∈ movePairs mesh a target ↔ p.2 < mesh.prod ∧
      ∃ c ∈ target (devicePos mesh a p.2), p.1 = moveAlong mesh a c p.2 := by
  rw [movePairs, mem_filterMap]
  constructor
  · intro ⟨device, hdev, hp⟩
    obtain ⟨c, hc, rfl⟩ := map_eq_some_iff.mp hp
    exact ⟨mem_range.mp hdev, c, hc, rfl⟩
  · intro ⟨hlt, c, hc, heq⟩
    exact ⟨p.2, mem_range.mpr hlt, map_eq_some_iff.mpr ⟨c, hc, by rw [← heq]⟩⟩

theorem find_movePairs {device : Nat} (hdev : device < mesh.prod) :
    (movePairs mesh a target).find? (fun p => p.2 == device) =
      (target (devicePos mesh a device)).map fun c => (moveAlong mesh a c device, device) := by
  have hnone : ∀ p ∈ movePairs mesh a target, p.2 = device →
      (target (devicePos mesh a device)).map (fun c => (moveAlong mesh a c device, device)) = some p := by
    intro p hp heq
    subst heq
    obtain ⟨-, c, hc, heq⟩ := mem_movePairs.mp hp
    rw [mem_def.mp hc, map_some, ← heq]
  cases hfind : (movePairs mesh a target).find? (fun p => p.2 == device) with
  | some p =>
    have heq : p.2 = device := by simpa using find?_some hfind
    exact (hnone p (mem_of_find?_eq_some hfind) heq).symm
  | none =>
    cases htarget : target (devicePos mesh a device) with
    | none => rfl
    | some c =>
      have hmem : (moveAlong mesh a c device, device) ∈ movePairs mesh a target :=
        mem_movePairs.mpr ⟨hdev, c, htarget, rfl⟩
      exact absurd (beq_self_eq_true device) (find?_eq_none.mp hfind _ hmem)

theorem nodup_snd_movePairs : ((movePairs mesh a target).map Prod.snd).Nodup := by
  have hsub : List.Sublist ((movePairs mesh a target).map Prod.snd) (range mesh.prod) := by
    rw [movePairs, map_filterMap]
    have heq : (fun device => ((target (devicePos mesh a device)).map fun c =>
        (moveAlong mesh a c device, device)).map Prod.snd) =
        Option.guard fun device => (target (devicePos mesh a device)).isSome := by
      funext device
      cases h : target (devicePos mesh a device) <;> simp [Option.guard, h]
    rw [heq, filterMap_eq_filter]
    exact filter_sublist
  exact hsub.nodup nodup_range

theorem pairsOk_movePairs (ha : a < mesh.length) (hlt : ∀ c < coord mesh a, ∀ c' ∈ target c, c' < coord mesh a)
    (hinj : ∀ c₁ < coord mesh a, ∀ c₂ < coord mesh a, ∀ c' ∈ target c₁, c' ∈ target c₂ → c₁ = c₂) :
    PairsOk mesh.prod (movePairs mesh a target) := by
  have hfst : ∀ p ∈ movePairs mesh a target, p.1 < mesh.prod := by
    intro p hp
    obtain ⟨hdev, c, hc, heq⟩ := mem_movePairs.mp hp
    rw [heq]
    exact moveAlong_lt hdev ha (hlt _ (devicePos_lt hdev ha) c hc)
  refine ⟨?_, nodup_snd_movePairs, fun p hp => ⟨hfst p hp, (mem_movePairs.mp hp).1⟩⟩
  refine nodup_snd_movePairs.of_map.map_on fun p hp q hq heq => ?_
  obtain ⟨hp2, c, hc, hp1⟩ := mem_movePairs.mp hp
  obtain ⟨hq2, c', hc', hq1⟩ := mem_movePairs.mp hq
  have hplt := devicePos_lt hp2 ha
  have hqlt := devicePos_lt hq2 ha
  have hclt := hlt _ hplt c hc
  have hclt' := hlt _ hqlt c' hc'
  -- The source has the coordinate of the move, and moving it back gives the target.
  have hcoord : c = c' := by
    rw [← devicePos_moveAlong hp2 ha hclt, ← hp1, heq, hq1, devicePos_moveAlong hq2 ha hclt']
  subst hcoord
  have hpos := hinj _ hplt _ hqlt c hc hc'
  have hback := congrArg (moveAlong mesh a (devicePos mesh a p.2)) (hp1.symm.trans (heq.trans hq1))
  rw [moveAlong_moveAlong hp2 ha hclt, moveAlong_moveAlong hq2 ha hclt',
    moveAlong_devicePos hp2 ha, hpos, moveAlong_devicePos hq2 ha] at hback
  exact Prod.ext heq hback

theorem along_collectivePermute [Zero α] {d n : Nat} (hpairs : PairsOk mesh.prod (movePairs mesh a target))
    (h : Along d shape n f x) : ∃ y, collectivePermute mesh.prod (movePairs mesh a target) x = some y ∧
      ∃ g, Along d shape n g y ∧ ∀ idx k, ∀ device < mesh.prod, g idx k device =
        ((target (devicePos mesh a device)).map fun c => f idx k (moveAlong mesh a c device)).getD
          0 := by
  obtain ⟨y, hy, halong⟩ := h.collectivePermute hpairs
  refine ⟨y, hy, _, halong, fun idx k device hdev => ?_⟩
  rw [find_movePairs hdev]
  cases target (devicePos mesh a device) <;> rfl

end

/-! ### The coordinates -/

section

variable {size c c' : Nat} {leftToRight onlyEdges splitHalfComm : Bool}

theorem dstCoord_lt (hc : c < size) (h : c' ∈ dstCoord size c leftToRight onlyEdges splitHalfComm) :
    c' < size := by
  have hpos : 0 < size := pos_of_gt hc
  have hleft : (c + size - 1) % size < size := Nat.mod_lt _ hpos
  have hright : (c + 1) % size < size := Nat.mod_lt _ hpos
  rw [dstCoord] at h
  split at h
  · split at h
    · split at h
      · cases h
      · exact some.inj h ▸ hleft
    · split at h
      · cases h
      · exact some.inj h ▸ hright
  · split at h
    · split at h
      · cases h
      · exact some.inj h ▸ hright
    · split at h
      · cases h
      · exact some.inj h ▸ hleft

theorem left_eq (hc : c < size) : (c + size - 1) % size = if c = 0 then size - 1 else c - 1 := by
  by_cases h : c = 0
  · subst h
    rw [if_pos rfl, zero_add, Nat.mod_eq_of_lt (by omega)]
  · rw [if_neg h, show c + size - 1 = c - 1 + size by omega, Nat.add_mod_right, Nat.mod_eq_of_lt (by omega)]

theorem right_eq (hc : c < size) : (c + 1) % size = if c + 1 = size then 0 else c + 1 := by
  by_cases h : c + 1 = size
  · rw [if_pos h, h, Nat.mod_self]
  · rw [if_neg h, Nat.mod_eq_of_lt (by omega)]

theorem dstCoord_inj {c₁ c₂ : Nat} (hc₁ : c₁ < size) (hc₂ : c₂ < size)
    (h₁ : c' ∈ dstCoord size c₁ leftToRight onlyEdges splitHalfComm)
    (h₂ : c' ∈ dstCoord size c₂ leftToRight onlyEdges splitHalfComm) : c₁ = c₂ := by
  simp only [dstCoord, left_eq hc₁, right_eq hc₁, left_eq hc₂, right_eq hc₂] at h₁ h₂
  grind

theorem dstCoord_ne (hsize : 2 ≤ size) (hc : c < size)
    (h : c' ∈ dstCoord size c leftToRight onlyEdges splitHalfComm) : c' ≠ c := by
  simp only [dstCoord, left_eq hc, right_eq hc] at h
  grind

end

theorem pairsOk_generateShiftPairs {mesh : Mesh} {a : Nat} (ha : a < mesh.length)
    (leftToRight onlyEdges splitHalfComm : Bool) :
    PairsOk mesh.prod (generateShiftPairs mesh a leftToRight onlyEdges splitHalfComm) := by
  rw [generateShiftPairs_eq]
  exact pairsOk_movePairs ha (fun c hc c' hc' => dstCoord_lt hc hc')
    fun c₁ hc₁ c₂ hc₂ c' h₁ h₂ => dstCoord_inj hc₁ hc₂ h₁ h₂

theorem dstCoord_shift {numDevices p : Nat} (right : Bool) :
    dstCoord numDevices p right false false =
      some (if right then (p + 1) % numDevices else (p + numDevices - 1) % numDevices) := by
  cases right <;> simp [dstCoord]

theorem along_shift [Zero α] {mesh : Mesh} {a d n : Nat} (ha : a < mesh.length) (right : Bool)
    (hx : Along d shape n f x) :
    ∃ y, collectivePermute mesh.prod (generateShiftPairs mesh a right false false) x = some y ∧
      ∃ g, Along d shape n g y ∧ ∀ idx k, ∀ device < mesh.prod, g idx k device = f idx k (moveAlong mesh a
          (if right then (devicePos mesh a device + 1) % coord mesh a
            else (devicePos mesh a device + coord mesh a - 1) % coord mesh a) device) := by
  have hpairs := pairsOk_generateShiftPairs ha right false false
  rw [generateShiftPairs_eq] at hpairs ⊢
  obtain ⟨y, hy, g, halong, hg⟩ := along_collectivePermute hpairs hx
  refine ⟨y, hy, g, halong, fun idx k device hdev => ?_⟩
  rw [hg idx k device hdev, dstCoord_shift]
  rfl

theorem generateShiftPairs_differ {mesh : Mesh} {a : Nat} (ha : a < mesh.length) (hsize : 2 ≤ coord mesh a)
    {leftToRight onlyEdges splitHalfComm : Bool}
    (hp : p ∈ generateShiftPairs mesh a leftToRight onlyEdges splitHalfComm) :
    devicePos mesh a p.1 ≠ devicePos mesh a p.2 ∧ ∀ b, b ≠ a → devicePos mesh b p.1 = devicePos mesh b p.2 := by
  rw [generateShiftPairs_eq] at hp
  obtain ⟨hdev, c, hc, heq⟩ := mem_movePairs.mp hp
  have hpos := devicePos_lt hdev ha
  have hlt := dstCoord_lt hpos hc
  rw [heq, devicePos_moveAlong hdev ha hlt]
  refine ⟨dstCoord_ne hsize hpos hc, fun b hb => ?_⟩
  rw [devicePos, unravel_moveAlong hdev ha hlt]
  simp [coord, devicePos, getElem?_set_ne (Ne.symm hb)]

end EnzymeJax
