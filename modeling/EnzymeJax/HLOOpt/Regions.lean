import EnzymeJax.Communication.Lowering
import EnzymeJax.HLOOpt.DynamicSlices
import EnzymeJax.Library.Pieces

/-!
# Updates and slices of one region

The result of a `concatenate`, `wrap`, `extend` or `rotate` consists of regions along its dimension. An update within
one becomes an update of that input of the concatenation which the op is lowered to, a slice one of the operand.
-/

namespace EnzymeJax.Regions

open Tensor DynamicSlices List Option

inductive Op
  | concatenate (dim : Nat)
  | wrap (dim : Nat) (lhs rhs : Int)
  | extend (dim : Nat) (lhs rhs : Int)
  | rotate (dim : Nat) (amount : Int)

namespace Op

def concatDim : Op → Nat
  | concatenate dim | wrap dim _ _ | extend dim _ _ | rotate dim _ => dim

/-- The extents of the regions along the dimension, also of those that are empty. -/
def inputSizes : Op → List (List Nat) → List Int
  | concatenate dim, shapes => shapes.map fun shape => (coord shape dim : Int)
  | wrap dim lhs rhs, [shape] => [lhs, coord shape dim, rhs]
  | extend dim lhs rhs, [shape] => [lhs, coord shape dim, rhs]
  | rotate dim amount, [shape] => [coord shape dim - amount, amount]
  | _, _ => []

/-- Where the regions are taken to start in the operand. -/
def actualStartSizes : Op → List Nat → Option (List Int)
  | concatenate _, _ => none
  | wrap dim lhs _, shape => some [coord shape dim - lhs, 0, 0]
  | extend dim _ _, shape => some [0, 0, coord shape dim]
  | rotate _ amount, _ => some [amount, 0]

variable {α : Type}

/-- The inputs of the concatenation that `lowerWrap`, `lowerExtend` and `lowerRotate` build. -/
def inputs : Op → List (Tensor α) → Option (List (Tensor α))
  | concatenate _, xs => some xs
  | wrap dim lhs rhs, [x] => do
    let sl0 ← border (lhs ≠ 0) dim (coord x.shape dim - lhs) (coord x.shape dim) x
    let sl1 ← border (rhs ≠ 0) dim 0 rhs x
    return sl0 ++ x :: sl1
  | extend dim lhs rhs, [x] => do
    let sl0 ← border (lhs ≠ 0) dim 0 lhs x
    let sl1 ← border (rhs ≠ 0) dim (coord x.shape dim - rhs) (coord x.shape dim) x
    return sl0 ++ x :: sl1
  | rotate dim amount, [x] => do
    let sl0 ← slice (sliceAlong dim amount (coord x.shape dim) x.shape) x
    let sl1 ← slice (sliceAlong dim 0 amount x.shape) x
    return [sl0, sl1]
  | _, _ => none

def apply (op : Op) (xs : List (Tensor α)) : Option (Tensor α) :=
  (op.inputs xs).bind (Tensor.concatenate op.concatDim)

end Op

/-- The region that `[start, limit)` is in, and where it starts. -/
def findTargetInput (start limit currentOffset : Int) : List Int → Option (Nat × Int)
  | [] => none
  | inputSize :: inputSizes =>
    if start ≥ currentOffset ∧ limit ≤ currentOffset + inputSize then some (0, currentOffset)
    else (findTargetInput start limit (currentOffset + inputSize) inputSizes).map fun p => (p.1 + 1, p.2)

section

variable {α : Type}

/-- What replaces an update, if the pattern fires. -/
def DUSConcat (op : Op) (xs : List (Tensor α)) (update : Tensor α) (startIndices : List Start) :
    Option (Option (Tensor α)) := do
  let concatDim := op.concatDim
  let start ← startIndices[concatDim]?
  let concatStartVal ← start.getSExtValue
  let concatEndVal := concatStartVal + coord update.shape concatDim
  let (targetInputIdx, currentOffset) ←
    findTargetInput concatStartVal concatEndVal 0 (op.inputSizes (xs.map shape))
  let newStart : Start := ⟨start.type, makeAttr start.type (concatStartVal - currentOffset), true⟩
  some do
    let inputs ← op.inputs xs
    let targetInputVal ← inputs[targetInputIdx]?
    let newDus ←
      dynamicUpdateSlice ((startIndices.set concatDim newStart).map Start.value) update targetInputVal
    concatenate concatDim (inputs.set targetInputIdx newDus)

/-- What replaces a slice, if the pattern fires. -/
def SliceInternal (op : Op) (operand : Tensor α) (ds : List SliceDim) : Option (Option (Tensor α)) := do
  let concatDim := op.concatDim
  let actualStartSizes ← op.actualStartSizes operand.shape
  let d ← ds[concatDim]?
  let (targetInputIdx, currentOffset) ←
    findTargetInput d.start d.limit 0 (op.inputSizes [operand.shape])
  let actualStart ← actualStartSizes[targetInputIdx]?
  return slice (ds.set concatDim ⟨d.start - currentOffset + actualStart,
    d.limit - currentOffset + actualStart, d.stride⟩) operand

end

/-- What replaces an update has its elements, whatever those of the operands and the update. -/
def UpdatePreserves (α : Type) (op : Op) (shapes : List (List Nat)) (updateShape : List Nat)
    (startIndices : List Start) : Prop :=
  ∀ (xs : List (Tensor α)) (update y z : Tensor α), xs.map shape = shapes → update.shape = updateShape →
    op.apply xs = some y → dynamicUpdateSlice (startIndices.map Start.value) update y = some z →
      ∀ res, DUSConcat op xs update startIndices = some res → ∃ w, res = some w ∧ Same w z

def SlicePreserves (α : Type) (op : Op) (shape : List Nat) (ds : List SliceDim) : Prop :=
  ∀ operand y z : Tensor α, operand.shape = shape → op.apply [operand] = some y → slice ds y = some z →
    ∀ res, SliceInternal op operand ds = some res → ∃ w, res = some w ∧ Same w z

/-- The inputs are numbered as the regions are, or it does not matter which one is updated. -/
def UpdateHolds (op : Op) (shapes : List (List Nat)) (updateShape : List Nat) (start : Int) : Prop :=
  match op with
  | .concatenate _ | .rotate _ _ => True
  | .wrap dim lhs rhs | .extend dim lhs rhs =>
    lhs ≠ 0 ∨ start + coord updateShape dim ≤ 0 ∨
      rhs ≠ 0 ∧ (∀ shape ∈ shapes, start + coord updateShape dim ≤ coord shape dim) ∧
        coord updateShape dim ≤ rhs ∧ 0 ∈ updateShape

/-- The slice does not reach into what an `extend` appends. -/
def SliceHolds (op : Op) (shape : List Nat) (ds : List SliceDim) : Prop :=
  match op with
  | .extend dim lhs _ => ∀ d, ds[dim]? = some d → d.limit ≤ lhs + coord shape dim
  | _ => True

/-! ### The inputs of the concatenation -/

theorem exists_of_bind₂ {β γ δ : Type} {b : Option β} {c : Option γ} {f : β → γ → δ} {r : δ}
    (h : (do let y ← b; let z ← c; return f y z) = some r) : ∃ y z, b = some y ∧ c = some z ∧ r = f y z := by
  obtain ⟨y, hy, h⟩ := bind_eq_some_iff.mp h
  obtain ⟨z, hz, h⟩ := bind_eq_some_iff.mp h
  exact ⟨y, z, hy, hz, (some.inj h).symm⟩

section

variable {α : Type} {d : Nat} {start limit offset o : Int} {i : Nat} {xs ps : List (Tensor α)}
  {x y : Tensor α} {op : Op}

theorem target_of_inputs
    (h : findTargetInput start limit offset (xs.map fun x => (coord x.shape d : Int)) = some (i, o)) :
    ∃ pre x post, xs = pre ++ x :: post ∧ pre.length = i ∧ o = offset + total d pre ∧ o ≤ start ∧
      limit ≤ o + coord x.shape d := by
  induction xs generalizing offset i with
  | nil => cases h
  | cons x xs ih =>
    rw [map_cons, findTargetInput] at h
    split at h
    · rename_i hin
      cases some.inj h
      exact ⟨[], x, xs, rfl, rfl, (Int.add_zero _).symm, hin.1, hin.2⟩
    · obtain ⟨⟨i', o'⟩, hp, heq⟩ := map_eq_some_iff.mp h
      cases heq
      obtain ⟨pre, x', post, rfl, rfl, ho, hstart, hlimit⟩ := ih hp
      refine ⟨x :: pre, x', post, rfl, rfl, ?_, hstart, hlimit⟩
      rw [ho, total_cons]
      omega

theorem target_of_three {a b c : Int} (h : findTargetInput start limit 0 [a, b, c] = some (i, o)) :
    i = 0 ∧ o = 0 ∧ 0 ≤ start ∧ limit ≤ a ∨ i = 1 ∧ o = a ∧ a ≤ start ∧ limit ≤ a + b ∧ ¬(0 ≤ start ∧ limit ≤ a) ∨
      i = 2 ∧ o = a + b ∧ a + b ≤ start ∧ limit ≤ a + b + c ∧ ¬(a ≤ start ∧ limit ≤ a + b) := by
  simp only [findTargetInput, Int.zero_add] at h
  split_ifs at h
  · simp only [some.injEq, Prod.mk.injEq] at h
    omega
  · simp only [map_some, some.injEq, Prod.mk.injEq] at h
    omega
  · simp only [map_some, some.injEq, Prod.mk.injEq] at h
    omega
  · cases h

theorem target_of_two {a b : Int} (h : findTargetInput start limit 0 [a, b] = some (i, o)) :
    i = 0 ∧ o = 0 ∧ 0 ≤ start ∧ limit ≤ a ∨ i = 1 ∧ o = a ∧ a ≤ start ∧ limit ≤ a + b ∧ ¬(0 ≤ start ∧ limit ≤ a) := by
  simp only [findTargetInput, Int.zero_add] at h
  split_ifs at h
  · simp only [some.injEq, Prod.mk.injEq] at h
    omega
  · simp only [map_some, some.injEq, Prod.mk.injEq] at h
    omega
  · cases h

theorem findTargetInput_append_zero {sizes : List Int} (hsizes : sizes ≠ []) (hpos : ∀ n ∈ sizes, 0 ≤ n)
    {p : Nat × Int} (h : findTargetInput start limit offset (sizes ++ [0]) = some p) :
    findTargetInput start limit offset sizes = some p := by
  induction sizes generalizing offset p with
  | nil => exact absurd rfl hsizes
  | cons n sizes ih =>
    obtain ⟨hn, hpos⟩ := forall_mem_cons.mp hpos
    rw [cons_append, findTargetInput] at h
    rw [findTargetInput]
    split at h
    · rename_i hin
      rw [if_pos hin]
      exact h
    · rename_i hout
      rw [if_neg hout]
      obtain ⟨p', hp', rfl⟩ := map_eq_some_iff.mp h
      cases sizes with
      | nil =>
        rw [nil_append, findTargetInput] at hp'
        split at hp'
        · omega
        · cases hp'
      | cons n' sizes => rw [ih (cons_ne_nil _ _) hpos hp', map_some]

theorem border_eq_some {present : Bool} {sl : List (Tensor α)} (h : border present d start limit x = some sl) :
    present = false ∧ sl = [] ∨
      present = true ∧ ∃ z, sl = [z] ∧ slice (sliceAlong d start limit x.shape) x = some z := by
  rw [border] at h
  split at h
  · rename_i hpresent
    obtain ⟨z, hz, rfl⟩ := map_eq_some_iff.mp h
    exact .inr ⟨hpresent, z, rfl, hz⟩
  · rename_i hpresent
    exact .inl ⟨Bool.eq_false_iff.mpr hpresent, (some.inj h).symm⟩

theorem border_size {m : Int} {sl : List (Tensor α)} (hd : d < x.shape.length) (hm : limit - start = m)
    (h : border (m ≠ 0) d start limit x = some sl) :
    m = 0 ∧ sl = [] ∨ m ≠ 0 ∧ ∃ z, sl = [z] ∧ (coord z.shape d : Int) = m := by
  rcases border_eq_some h with ⟨hpresent, rfl⟩ | ⟨hpresent, z, rfl, hz⟩
  · exact .inl ⟨not_not.mp (of_decide_eq_false hpresent), rfl⟩
  · obtain ⟨-, hle, -, halong⟩ := along_of_slice hd hz
    refine .inr ⟨of_decide_eq_true hpresent, z, rfl, ?_⟩
    rw [halong.coord_shape hd]
    omega

/-- An op that has nothing in front of the operand. -/
structure Omitted (op : Op) (xs ps : List (Tensor α)) (d : Nat) (rhs : Int) (x : Tensor α)
    (sl1 : List (Tensor α)) : Prop where
  op_eq : op = .wrap d 0 rhs ∨ op = .extend d 0 rhs
  operands_eq : xs = [x]
  inputs_eq : ps = x :: sl1
  last_eq : rhs = 0 ∧ sl1 = [] ∨ rhs ≠ 0 ∧ ∃ z, sl1 = [z] ∧ (coord z.shape d : Int) = rhs

/-- The regions are those of the inputs, and maybe an empty one; or the first region is empty, and there is
no input for it. -/
inductive Numbered (op : Op) (xs ps : List (Tensor α)) : Prop
  | inOrder (rest : List Int) (hrest : rest = [] ∨ rest = [0])
    (hop : ∀ d rhs, op ≠ .wrap d 0 rhs ∧ op ≠ .extend d 0 rhs)
    (heq : op.inputSizes (xs.map shape) = (ps.map fun x => (coord x.shape op.concatDim : Int)) ++ rest)
  | omitted (d : Nat) (rhs : Int) (x : Tensor α) (sl1 : List (Tensor α))
    (h : Omitted op xs ps d rhs x sl1)

theorem numbered_of_borders {lhs rhs : Int} {sl0 sl1 : List (Tensor α)}
    (hop : op = .wrap d lhs rhs ∨ op = .extend d lhs rhs)
    (hsl0 : lhs = 0 ∧ sl0 = [] ∨ lhs ≠ 0 ∧ ∃ z, sl0 = [z] ∧ (coord z.shape d : Int) = lhs)
    (hsl1 : rhs = 0 ∧ sl1 = [] ∨ rhs ≠ 0 ∧ ∃ z, sl1 = [z] ∧ (coord z.shape d : Int) = rhs) :
    Numbered op [x] (sl0 ++ x :: sl1) := by
  have hdim : op.concatDim = d := by
    rcases hop with rfl | rfl
    · rfl
    · rfl
  have hsizes : op.inputSizes [x.shape] = [lhs, (coord x.shape d : Int), rhs] := by
    rcases hop with rfl | rfl
    · rfl
    · rfl
  rcases hsl0 with ⟨rfl, rfl⟩ | ⟨hlhs, z, rfl, hz⟩
  · exact .omitted d rhs x sl1 ⟨hop, rfl, rfl, hsl1⟩
  · have hfirst : ∀ d' rhs', op ≠ .wrap d' 0 rhs' ∧ op ≠ .extend d' 0 rhs' := by
      intro d' rhs'
      rcases hop with rfl | rfl
      · exact ⟨fun heq => hlhs (Op.wrap.inj heq).2.1, nofun⟩
      · exact ⟨nofun, fun heq => hlhs (Op.extend.inj heq).2.1⟩
    rcases hsl1 with ⟨rfl, rfl⟩ | ⟨-, z', rfl, hz'⟩
    · refine .inOrder [0] (.inr rfl) hfirst ?_
      rw [map_singleton, hsizes, hdim]
      simp [hz]
    · refine .inOrder [] (.inl rfl) hfirst ?_
      rw [map_singleton, hsizes, hdim]
      simp [hz, hz']

theorem length_of_inputs (hps : op.inputs [x] = some ps) : ∃ p ∈ ps, p.shape.length = x.shape.length := by
  unfold Op.inputs at hps
  split at hps
  · cases hps
    exact ⟨x, mem_cons_self, rfl⟩
  iterate 2
    · rename_i heq
      obtain rfl := singleton_inj.mp heq
      obtain ⟨sl0, sl1, -, -, rfl⟩ := exists_of_bind₂ hps
      exact ⟨x, mem_append_right sl0 mem_cons_self, rfl⟩
  · rename_i heq
    obtain rfl := singleton_inj.mp heq
    obtain ⟨sl0, sl1, hsl0, -, rfl⟩ := exists_of_bind₂ hps
    refine ⟨sl0, mem_cons_self, ?_⟩
    rw [slice] at hsl0
    split at hsl0
    · rename_i hok
      rw [← some.inj hsl0, length_map, hok.length_eq]
    · cases hsl0
  · cases hps

theorem lt_of_inputs (hps : op.inputs [x] = some ps) (hy : concatenate op.concatDim ps = some y) :
    op.concatDim < x.shape.length := by
  obtain ⟨hd, -, hfits, -⟩ := pieces_of_concatenate hy
  obtain ⟨p, hp, hlen⟩ := length_of_inputs hps
  rwa [← hlen, hfits.length_shape hp]

theorem numbered_of_apply (hps : op.inputs xs = some ps) (hy : concatenate op.concatDim ps = some y) :
    Numbered op xs ps := by
  have hlt : ∀ x, xs = [x] → op.concatDim < x.shape.length := by
    rintro x rfl
    exact lt_of_inputs hps hy
  unfold Op.inputs at hps
  split at hps
  · cases hps
    refine .inOrder [] (.inl rfl) (fun _ _ => ⟨nofun, nofun⟩) ?_
    rw [Op.inputSizes, List.map_map, append_nil]
    rfl
  · rename_i dim lhs rhs x
    obtain ⟨sl0, sl1, hsl0, hsl1, rfl⟩ := exists_of_bind₂ hps
    have hd : dim < x.shape.length := hlt x rfl
    exact numbered_of_borders (.inl rfl) (border_size hd (by omega) hsl0) (border_size hd (by omega) hsl1)
  · rename_i dim lhs rhs x
    obtain ⟨sl0, sl1, hsl0, hsl1, rfl⟩ := exists_of_bind₂ hps
    have hd : dim < x.shape.length := hlt x rfl
    exact numbered_of_borders (.inr rfl) (border_size hd (by omega) hsl0) (border_size hd (by omega) hsl1)
  · rename_i dim amount x
    obtain ⟨sl0, sl1, hsl0, hsl1, rfl⟩ := exists_of_bind₂ hps
    have hd : dim < x.shape.length := hlt x rfl
    obtain ⟨-, hle, -, halong0⟩ := along_of_slice hd hsl0
    obtain ⟨-, hle', -, halong1⟩ := along_of_slice hd hsl1
    refine .inOrder [] (.inl rfl) (fun _ _ => ⟨nofun, nofun⟩) ?_
    have hsize0 : (coord sl0.shape dim : Int) = coord x.shape dim - amount := by
      rw [halong0.coord_shape hd]
      omega
    have hsize1 : (coord sl1.shape dim : Int) = amount := by
      rw [halong1.coord_shape hd]
      omega
    simp [Op.inputSizes, Op.concatDim, hsize0, hsize1]
  · cases hps

end

/-! ### Updates -/

section

variable {α : Type} {op : Op} {xs ps : List (Tensor α)} {u y z : Tensor α} {startIndices : List Start}
  {start : Start} {c : Int}

/-- The op with the input of a number updated. -/
def updateInput (op : Op) (ps : List (Tensor α)) (u : Tensor α) (startIndices : List Start) (i : Nat)
    (newStart : Int) : Option (Tensor α) := do
  let x ← ps[i]?
  let x' ← dynamicUpdateSlice ((startIndices.map Start.value).set op.concatDim newStart) u x
  concatenate op.concatDim (ps.set i x')

variable {offset : Int}

variable {i : Nat} {newStart : Int}

theorem exists_DUSConcat {xs' : List (Tensor α)} {u' : Tensor α}
    (hstart : startIndices[op.concatDim]? = some start) (hc : start.getSExtValue = some c)
    (htarget : findTargetInput c (c + coord u.shape op.concatDim) 0 (op.inputSizes (xs.map shape)) =
      some (i, offset)) (hxs : xs'.map shape = xs.map shape) (hu : u'.shape = u.shape) :
    ∃ res, DUSConcat op xs' u' startIndices = some res := by
  rw [DUSConcat]
  simp only [bind_eq_bind, hstart, bind_some, hc, hxs, hu, htarget]
  exact ⟨_, rfl⟩

theorem DUSConcat_eq_some {res : Option (Tensor α)} (hps : op.inputs xs = some ps)
    (h : DUSConcat op xs u startIndices = some res) : ∃ start c i offset,
      startIndices[op.concatDim]? = some start ∧ start.getSExtValue = some c ∧
      findTargetInput c (c + coord u.shape op.concatDim) 0 (op.inputSizes (xs.map shape)) = some (i, offset) ∧
      res = updateInput op ps u startIndices i (makeAttr start.type (c - offset)) := by
  rw [DUSConcat] at h
  obtain ⟨start, hstart, h⟩ := bind_eq_some_iff.mp h
  obtain ⟨c, hc, h⟩ := bind_eq_some_iff.mp h
  obtain ⟨⟨i, offset⟩, htarget, h⟩ := bind_eq_some_iff.mp h
  refine ⟨start, c, i, offset, hstart, hc, htarget, ?_⟩
  rw [← some.inj h, hps, updateInput]
  simp only [map_set]
  rfl

theorem updateInput_same {x : Tensor α} {pre post : List (Tensor α)} (hps : ps = pre ++ x :: post)
    (hvalid : start.Valid) (hstart : startIndices[op.concatDim]? = some start) (hc : start.getSExtValue = some c)
    (hlow : (total op.concatDim pre : Int) ≤ c)
    (hhigh : c + coord u.shape op.concatDim ≤ total op.concatDim pre + coord x.shape op.concatDim)
    (hy : concatenate op.concatDim ps = some y) (hz : dynamicUpdateSlice (startIndices.map Start.value) u y = some z) :
    ∃ w, updateInput op ps u startIndices pre.length
      (makeAttr start.type (c - total op.concatDim pre)) = some w ∧ Same w z := by
  subst hps
  obtain ⟨n, rfl⟩ := Int.eq_ofNat_of_zero_le ((Int.natCast_nonneg _).trans hlow)
  have hval := value_of_getSExtValue hvalid hc (Int.natCast_nonneg n)
  have hset : startIndices.map Start.value = (startIndices.map Start.value).set op.concatDim n := by
    obtain ⟨hd, hget⟩ := List.getElem?_eq_some_iff.mp hstart
    refine ext_getElem (by simp) fun e he he' => ?_
    rw [getElem_set]
    split
    · rename_i hde
      subst hde
      rw [getElem_map, hget, hval]
    · rfl
  have hnew : makeAttr start.type ((n : Int) - total op.concatDim pre) =
      ((n - total op.concatDim pre : Nat) : Int) := by
    have hwrap : start.type.wrap n = n := hval ▸ hvalid
    rw [makeAttr, IntType.wrap_of_le hwrap (by omega) (by omega)]
    omega
  rw [hset] at hz
  obtain ⟨x', hx', w, hw, hsame⟩ := update_concatenate hy hz (by omega) (by omega)
  refine ⟨w, ?_, hsame⟩
  rw [updateInput, hnew, getElem?_append_right (le_refl _), Nat.sub_self]
  simp only [getElem?_cons_zero, bind_eq_bind, bind_some, hx', hw,
    set_append_right pre.length _ (le_refl _), Nat.sub_self, set_cons_zero]

theorem updateInput_of_inOrder {rest : List Int} (hvalid : start.Valid)
    (hstart : startIndices[op.concatDim]? = some start) (hc : start.getSExtValue = some c)
    (hrest : rest = [] ∨ rest = [0])
    (heq : op.inputSizes (xs.map shape) = (ps.map fun x => (coord x.shape op.concatDim : Int)) ++ rest)
    (htarget : findTargetInput c (c + coord u.shape op.concatDim) 0 (op.inputSizes (xs.map shape)) = some (i, offset))
    (hy : concatenate op.concatDim ps = some y) (hz : dynamicUpdateSlice (startIndices.map Start.value) u y = some z) :
    ∃ w, updateInput op ps u startIndices i (makeAttr start.type (c - offset)) = some w ∧ Same w z := by
  have hinputs : findTargetInput c (c + coord u.shape op.concatDim) 0
      (ps.map fun x => (coord x.shape op.concatDim : Int)) = some (i, offset) := by
    rw [heq] at htarget
    rcases hrest with rfl | rfl
    · rwa [append_nil] at htarget
    · refine findTargetInput_append_zero ?_ ?_ htarget
      · obtain ⟨-, hne, -, -⟩ := pieces_of_concatenate hy
        exact fun hnil => hne (map_eq_nil_iff.mp hnil)
      · intro n hn
        obtain ⟨x, -, rfl⟩ := mem_map.mp hn
        exact Int.natCast_nonneg _
  obtain ⟨pre, x, post, hps, rfl, rfl, hlow, hhigh⟩ := target_of_inputs hinputs
  rw [Int.zero_add] at hlow hhigh ⊢
  exact updateInput_same hps hvalid hstart hc hlow hhigh hy hz

theorem inputs_of_shapes {xs' : List (Tensor α)} (hps : op.inputs xs = some ps) (hxs : xs'.map shape = xs.map shape) :
    ∃ ps', op.inputs xs' = some ps' ∧ ps'.map shape = ps.map shape := by
  have hborder : ∀ {present : Bool} {d : Nat} {start limit : Int} {x x' : Tensor α}
      {sl : List (Tensor α)}, border present d start limit x = some sl → x'.shape = x.shape →
        ∃ sl', border present d start limit x' = some sl' ∧ sl'.map shape = sl.map shape := by
    intro present d start limit x x' sl hsl hx
    rcases border_eq_some hsl with ⟨rfl, rfl⟩ | ⟨rfl, z, rfl, hz⟩
    · exact ⟨[], rfl, rfl⟩
    · obtain ⟨z', hz', hshape⟩ := slice_of_shape hz hx
      refine ⟨[z'], ?_, by rw [map_singleton, map_singleton, hshape]⟩
      rw [border, hx, hz']
      rfl
  have hone : ∀ {x : Tensor α}, xs'.map shape = [x].map shape → ∃ x', xs' = [x'] ∧ x'.shape = x.shape := by
    intro x hx
    obtain ⟨x', rfl⟩ : ∃ x', xs' = [x'] := length_eq_one_iff.mp (by simpa using congrArg List.length hx)
    exact ⟨x', rfl, (List.cons.inj hx).1⟩
  unfold Op.inputs at hps
  split at hps
  · cases hps
    exact ⟨xs', rfl, hxs⟩
  -- a wrap and an extend
  iterate 2
    · obtain ⟨x', rfl, hx⟩ := hone hxs
      obtain ⟨sl0, sl1, hsl0, hsl1, rfl⟩ := exists_of_bind₂ hps
      obtain ⟨sl0', hsl0', hshape0⟩ := hborder hsl0 hx
      obtain ⟨sl1', hsl1', hshape1⟩ := hborder hsl1 hx
      refine ⟨sl0' ++ x' :: sl1', ?_, by simp [hshape0, hshape1, hx]⟩
      simp only [Op.inputs, hx, hsl0', hsl1', bind_eq_bind, bind_some, Option.pure_def]
  · obtain ⟨x', rfl, hx⟩ := hone hxs
    obtain ⟨sl0, sl1, hsl0, hsl1, rfl⟩ := exists_of_bind₂ hps
    obtain ⟨sl0', hsl0', hshape0⟩ := slice_of_shape hsl0 hx
    obtain ⟨sl1', hsl1', hshape1⟩ := slice_of_shape hsl1 hx
    refine ⟨[sl0', sl1'], ?_, by simp [hshape0, hshape1]⟩
    simp only [Op.inputs, hx, hsl0', hsl1', bind_eq_bind, bind_some, Option.pure_def]
  · cases hps

theorem updateInput_last {d : Nat} {x r : Tensor α} (hd : op.concatDim = d) (hempty : 0 ∈ u.shape)
    (hy : concatenate d [x, r] = some y) (hz : dynamicUpdateSlice (startIndices.map Start.value) u y = some z)
    (hle : coord u.shape d ≤ coord r.shape d) :
    ∃ w, updateInput op [x, r] u startIndices 1 newStart = some w ∧ Same w z := by
  subst hd
  obtain ⟨hd, -, hfits, -⟩ := pieces_of_concatenate hy
  have hok : DynamicSliceOk y.shape u.shape (startIndices.map Start.value).length := by
    rw [dynamicUpdateSlice] at hz
    split at hz
    · assumption
    · cases hz
  have hsizes := hok.2.length_eq
  have hfit : ∀ e < y.shape.length, e ≠ op.concatDim → coord u.shape e ≤ coord y.shape e := by
    intro e he _
    rw [coord_eq_getElem he, coord_eq_getElem (hsizes.symm ▸ he)]
    exact (forall₂_iff_get.mp hok.2).2 e (hsizes.symm ▸ he) he
  obtain ⟨r', hr', hralong⟩ := Along.update (a := newStart) hd hsizes hok.1
    (hfits.along (mem_cons_of_mem _ mem_cons_self)) (Along.self (hsizes.symm ▸ hd)) hfit hle
  have hsame : Forall₂ Same [x, r] [x, r'] :=
    .cons (.refl x) (.cons (dynamicUpdateSlice_empty hempty hr').symm .nil)
  obtain ⟨w, hw, hwy⟩ := concatenate_congr hsame hy
  refine ⟨w, ?_, hwy.trans (dynamicUpdateSlice_empty hempty hz).symm⟩
  simp only [updateInput, getElem?_cons_succ, getElem?_cons_zero, bind_eq_bind,
    bind_some, hr', set_cons_succ, set_cons_zero, hw]

theorem fits_of_updateInput {d : Nat} {x r w : Tensor α} (hdr : d < r.shape.length)
    (h : updateInput op [x, r] u startIndices 1 newStart = some w) : coord u.shape d ≤ coord r.shape d := by
  simp only [updateInput, getElem?_cons_succ, getElem?_cons_zero, bind_eq_bind, bind_some] at h
  obtain ⟨r', hr', -⟩ := bind_eq_some_iff.mp h
  rw [dynamicUpdateSlice] at hr'
  split at hr'
  · rename_i hok
    rw [coord_eq_getElem hdr, coord_eq_getElem (hok.2.length_eq.symm ▸ hdr)]
    exact (forall₂_iff_get.mp hok.2).2 d (hok.2.length_eq.symm ▸ hdr) hdr
  · cases hr'

theorem not_same_of_updateInput {d : Nat} {x r w : Tensor α} {p q : α} (hd : op.concatDim = d)
    (hstart : startIndices[d]? = some start) (hval : start.value = c) (hc : 0 ≤ c)
    (hin : c + coord u.shape d ≤ coord x.shape d) (hy : concatenate d [x, r] = some y)
    (hz : dynamicUpdateSlice (startIndices.map Start.value) u y = some z) (hx : ∀ idx, x.get idx = p)
    (hu : ∀ idx, u.get idx = q) (hpq : p ≠ q) (hpos : 0 ∉ u.shape)
    (h : updateInput op [x, r] u startIndices 1 newStart = some w) : ¬Same w z := by
  subst hd
  intro hsame
  simp only [updateInput, getElem?_cons_succ, getElem?_cons_zero, bind_eq_bind,
    bind_some, set_cons_succ, set_cons_zero] at h
  obtain ⟨r', -, hw⟩ := bind_eq_some_iff.mp h
  obtain ⟨hdw, -, -, hwpieces⟩ := pieces_of_concatenate hw
  obtain ⟨hmem, j, hget⟩ := get_of_updated hpos hz
  have hok : DynamicSliceOk y.shape u.shape (startIndices.map Start.value).length ∧ z.shape = y.shape := by
    rw [dynamicUpdateSlice] at hz
    split at hz
    · rename_i hok
      exact ⟨hok, (congrArg Tensor.shape (some.inj hz)).symm⟩
    · cases hz
  obtain ⟨⟨hlen, hle⟩, hshape⟩ := hok
  have hwshape : w.shape = y.shape := hsame.shape_eq.trans hshape
  have hdy : op.concatDim < y.shape.length := hwshape ▸ hdw
  have hdu : op.concatDim < u.shape.length := hle.length_eq.symm ▸ hdy
  have hm : 0 < coord u.shape op.concatDim := by
    rw [coord_eq_getElem hdu]
    exact pos_of_ne_zero fun hzero => hpos (hzero ▸ getElem_mem hdu)
  -- The first element of the region is one of the operand.
  have hcoord : coord (zipWith3 clampStart y.shape u.shape (startIndices.map Start.value))
      op.concatDim < coord x.shape op.concatDim := by
    rw [coord_clampStarts hlen hle.length_eq hdy, getD_eq_getElem?_getD, getElem?_map,
      hstart, map_some, getD_some, hval, clampStart]
    omega
  generalize zipWith3 clampStart y.shape u.shape (startIndices.map Start.value) = idx at hmem hget hcoord
  rw [← hwshape, hwpieces.shape_eq] at hmem
  obtain ⟨hbase, hk, heq⟩ := exists_line hdw hmem
  have hread := hwpieces.get_eq _ hbase _ hk
  rw [← heq, piece, if_pos hcoord, hx] at hread
  rw [← hwpieces.shape_eq] at hmem
  rw [← hsame.get_eq _ hmem, hu, some.inj hread] at hget
  exact hpq hget

theorem target_of_omitted {n : Nat} {limit rhs offset : Int}
    (h : findTargetInput c limit 0 [0, (n : Int), rhs] = some (i, offset)) :
    0 ≤ c ∧ (limit ≤ 0 ∧ i = 0 ∧ offset = 0 ∨ ¬limit ≤ 0 ∧ limit ≤ n ∧ i = 1 ∨ ¬limit ≤ n ∧ i = 2) := by
  rcases target_of_three h with ⟨rfl, rfl, hlow, hhigh⟩ | ⟨rfl, rfl, hlow, hhigh, hnot⟩ |
    ⟨rfl, rfl, hlow, -, hnot⟩
  · exact ⟨hlow, .inl ⟨by omega, rfl, rfl⟩⟩
  · exact ⟨hlow, .inr (.inl ⟨by omega, by omega, rfl⟩)⟩
  · exact ⟨by omega, .inr (.inr ⟨by omega, rfl⟩)⟩

structure Fires (op : Op) (xs ps : List (Tensor α)) (u y z : Tensor α) (startIndices : List Start)
    (start : Start) (c : Int) : Prop where
  inputs_eq : op.inputs xs = some ps
  concatenate_eq : concatenate op.concatDim ps = some y
  update_eq : dynamicUpdateSlice (startIndices.map Start.value) u y = some z
  start_eq : startIndices[op.concatDim]? = some start
  valid : start.Valid
  constant_eq : start.getSExtValue = some c

namespace Omitted

variable {d : Nat} {rhs : Int} {x : Tensor α} {sl1 : List (Tensor α)}

section

variable (h : Omitted op xs ps d rhs x sl1)

include h

theorem concatDim_eq : op.concatDim = d := by
  rcases h.op_eq with rfl | rfl
  · rfl
  · rfl

theorem inputSizes_eq : op.inputSizes (xs.map shape) = [0, (coord x.shape d : Int), rhs] := by
  rw [h.operands_eq]
  rcases h.op_eq with rfl | rfl
  · rfl
  · rfl

theorem updateHolds_iff (updateShape : List Nat) :
    UpdateHolds op (xs.map shape) updateShape c ↔ c + coord updateShape d ≤ 0 ∨
      rhs ≠ 0 ∧ c + coord updateShape d ≤ coord x.shape d ∧ coord updateShape d ≤ rhs ∧ 0 ∈ updateShape := by
  rw [h.operands_eq]
  rcases h.op_eq with rfl | rfl
  · simp [UpdateHolds]
  · simp [UpdateHolds]

section

variable (hfires : Fires op xs ps u y z startIndices start c)
  (htarget : findTargetInput c (c + coord u.shape op.concatDim) 0 (op.inputSizes (xs.map shape)) = some (i, offset))

include hfires htarget

theorem updateInput_same_of (hholds : UpdateHolds op (xs.map shape) u.shape c) :
    ∃ w, updateInput op ps u startIndices i (makeAttr start.type (c - offset)) = some w ∧ Same w z := by
  rw [h.updateHolds_iff] at hholds
  rw [h.inputSizes_eq, h.concatDim_eq] at htarget
  have hconcat := hfires.concatenate_eq
  obtain ⟨hc, ⟨hzero, rfl, rfl⟩ | ⟨hnot, hin, rfl⟩ | ⟨hnot, -⟩⟩ := target_of_omitted htarget
  · have hps : ps = [] ++ x :: sl1 := h.inputs_eq
    exact Regions.updateInput_same hps hfires.valid hfires.start_eq hfires.constant_eq hc
      (by rw [h.concatDim_eq, total_nil]; omega) hconcat hfires.update_eq
  · rcases hholds with hzero | ⟨hrhs, -, hle, hempty⟩
    · exact absurd hzero hnot
    · rcases h.last_eq with ⟨hrhs', -⟩ | ⟨-, r, hsl1, hr⟩
      · exact absurd hrhs' hrhs
      · have hps : ps = [x, r] := by rw [h.inputs_eq, hsl1]
        subst hps
        rw [h.concatDim_eq] at hconcat
        exact updateInput_last h.concatDim_eq hempty hconcat hfires.update_eq (by omega)
  · omega

theorem updateHolds_of {p q : α} (hx : ∀ idx, x.get idx = p) (hu : ∀ idx, u.get idx = q) (hpq : p ≠ q)
    (hsame : ∃ w, updateInput op ps u startIndices i (makeAttr start.type (c - offset)) = some w ∧ Same w z) :
    UpdateHolds op (xs.map shape) u.shape c := by
  rw [h.updateHolds_iff]
  rw [h.inputSizes_eq, h.concatDim_eq] at htarget
  obtain ⟨w, hw, hsame⟩ := hsame
  have hconcat := hfires.concatenate_eq
  have hi : i < ps.length := by
    obtain ⟨x', hx', -⟩ := bind_eq_some_iff.mp hw
    exact (List.getElem?_eq_some_iff.mp hx').1
  obtain ⟨hc, ⟨hzero, -, -⟩ | ⟨hnot, hin, rfl⟩ | ⟨-, rfl⟩⟩ := target_of_omitted htarget
  · exact .inl hzero
  · rcases h.last_eq with ⟨-, hsl1⟩ | ⟨hrhs, r, hsl1, hr⟩
    · rw [h.inputs_eq, hsl1] at hi
      exact absurd hi (lt_irrefl 1)
    · have hps : ps = [x, r] := by rw [h.inputs_eq, hsl1]
      subst hps
      have hval := value_of_getSExtValue hfires.valid hfires.constant_eq hc
      obtain ⟨hd, -, hfits, -⟩ := pieces_of_concatenate hconcat
      have hdr : op.concatDim < r.shape.length := by
        rwa [hfits.length_shape (mem_cons_of_mem _ mem_cons_self)]
      have hstart := hfires.start_eq
      have hle := fits_of_updateInput hdr hw
      rw [h.concatDim_eq] at hconcat hstart hle
      refine .inr ⟨hrhs, hin, by omega, ?_⟩
      by_contra hpos
      exact not_same_of_updateInput h.concatDim_eq hstart hval hc hin hconcat hfires.update_eq hx hu hpq
        hpos hw hsame
  · rcases h.last_eq with ⟨-, hsl1⟩ | ⟨-, r, hsl1, -⟩
    · rw [h.inputs_eq, hsl1] at hi
      exact absurd hi (by simp)
    · rw [h.inputs_eq, hsl1] at hi
      exact absurd hi (by simp)

end

end

end Omitted

theorem updateHolds_of_inOrder {shapes : List (List Nat)} {updateShape : List Nat}
    (hop : ∀ d rhs, op ≠ .wrap d 0 rhs ∧ op ≠ .extend d 0 rhs) : UpdateHolds op shapes updateShape c := by
  cases op with
  | concatenate dim | rotate dim amount => trivial
  | wrap dim lhs rhs => exact .inl fun hlhs => (hop dim rhs).1 (hlhs ▸ rfl)
  | extend dim lhs rhs => exact .inl fun hlhs => (hop dim rhs).2 (hlhs ▸ rfl)

theorem updatePreserves_of_holds {shapes : List (List Nat)} {updateShape : List Nat} (hvalid : start.Valid)
    (hstart : startIndices[op.concatDim]? = some start) (hc : start.getSExtValue = some c)
    (h : UpdateHolds op shapes updateShape c) : UpdatePreserves α op shapes updateShape startIndices := by
  intro xs u y z hshapes hshape hy hz res hres
  subst hshapes hshape
  obtain ⟨ps, hps, hconcat⟩ := bind_eq_some_iff.mp hy
  obtain ⟨start', c', i, offset, hstart', hc', htarget, rfl⟩ := DUSConcat_eq_some hps hres
  cases hstart.symm.trans hstart'
  cases hc.symm.trans hc'
  cases numbered_of_apply hps hconcat with
  | inOrder rest hrest _ heq => exact updateInput_of_inOrder hvalid hstart hc hrest heq htarget hconcat hz
  | omitted d rhs x sl1 homitted =>
    exact homitted.updateInput_same_of ⟨hps, hconcat, hz, hstart, hvalid, hc⟩ htarget h

/-- An update that the pattern fires on is right if and only if the input of the number of its region is
that region, or it has no elements and fits into the other input. -/
theorem updatePreserves_iff [Nontrivial α] (hvalid : start.Valid)
    (hstart : startIndices[op.concatDim]? = some start) (hc : start.getSExtValue = some c)
    (hy : op.apply xs = some y) (hz : dynamicUpdateSlice (startIndices.map Start.value) u y = some z)
    {res : Option (Tensor α)} (hfires : DUSConcat op xs u startIndices = some res) :
    UpdatePreserves α op (xs.map shape) u.shape startIndices ↔ UpdateHolds op (xs.map shape) u.shape c := by
  refine ⟨fun h => ?_, updatePreserves_of_holds hvalid hstart hc⟩
  obtain ⟨ps, hps, hconcat⟩ := bind_eq_some_iff.mp hy
  obtain ⟨start', c', i, offset, hstart', hc', htarget, -⟩ := DUSConcat_eq_some hps hfires
  cases hstart.symm.trans hstart'
  cases hc.symm.trans hc'
  cases numbered_of_apply hps hconcat with
  | inOrder rest hrest hop heq => exact updateHolds_of_inOrder hop
  | omitted d rhs x sl1 homitted =>
    -- The elements of the operand and of the update are told apart.
    obtain ⟨p, q, hpq⟩ := exists_pair_ne α
    have hxs : [splat x.shape p].map shape = xs.map shape := by rw [homitted.operands_eq]; rfl
    obtain ⟨ps', hps', hshapes⟩ := inputs_of_shapes hps hxs
    obtain ⟨y', hy', hyshape⟩ := concatenate_of_shapes hconcat hshapes
    have hu : (splat u.shape q).shape = u.shape := rfl
    obtain ⟨z', hz', -⟩ := dynamicUpdateSlice_of_shape hz hu hyshape
    obtain ⟨res', hres'⟩ := exists_DUSConcat hstart hc htarget hxs hu
    have hright := h _ (splat u.shape q) y' z' hxs rfl (bind_eq_some_iff.mpr ⟨ps', hps', hy'⟩) hz'
      res' hres'
    obtain ⟨start', c', i', offset', hstart', hc', htarget', rfl⟩ := DUSConcat_eq_some hps' hres'
    cases hstart.symm.trans hstart'
    cases hc.symm.trans hc'
    rw [← hxs]
    cases numbered_of_apply hps' hy' with
    | inOrder rest hrest hop heq => exact updateHolds_of_inOrder hop
    | omitted d' rhs' x' sl1' homitted' =>
      have hx' : splat x.shape p = x' := singleton_inj.mp homitted'.operands_eq
      have hholds : UpdateHolds op ([splat x.shape p].map shape) (splat u.shape q).shape c :=
        homitted'.updateHolds_of ⟨hps', hy', hz', hstart, hvalid, hc⟩ htarget' (fun idx => hx' ▸ rfl)
          (fun _ => rfl) hpq hright
      exact hholds

end

/-! ### Slices -/

section

variable {α : Type} {op : Op} {x y z : Tensor α} {ds : List SliceDim}

/-- The place in the operand of what is at `k` of the result. -/
def place (op : Op) (n k : Nat) : Nat :=
  match op with
  | .concatenate _ => k
  | .wrap _ lhs _ =>
    if k < lhs.toNat then n - lhs.toNat + k
    else if k - lhs.toNat < n then k - lhs.toNat else k - lhs.toNat - n
  | .extend _ lhs rhs =>
    if k < lhs.toNat then k
    else if k - lhs.toNat < n then k - lhs.toNat else n - rhs.toNat + (k - lhs.toNat - n)
  | .rotate _ amount => if k < n - amount.toNat then amount.toNat + k else k - (n - amount.toNat)

theorem Along.gathers {d m : Nat} {σ : Nat → Nat} (hd : d < x.shape.length)
    (h : Along d x.shape m (fun idx k => x.get (idx.set d (σ k))) y) :
    Gathers (x.shape.set d m) (fun e k => if e = d then σ k else k) x y := by
  refine ⟨h.shape_eq, fun idx hidx => ?_⟩
  obtain ⟨hbase, hk, heq⟩ := exists_line hd hidx
  have hget := h.get_eq _ hbase _ hk
  rw [← heq] at hget
  rw [hget, set_set]
  refine congrArg x.get (ext_getElem (by simp) fun e he he' => ?_)
  rw [length_set] at he
  rw [getElem_set, getElem_mapIdx]
  by_cases hde : d = e
  · subst hde
    rw [if_pos rfl, if_pos rfl, coord_eq_getElem he]
  · rw [if_neg hde, if_neg (Ne.symm hde)]

theorem border_bounds {d : Nat} {start limit m : Int} {sl : List (Tensor α)} (hd : d < x.shape.length)
    (h : border (m ≠ 0) d start limit x = some sl) : m = 0 ∨ 0 ≤ start ∧ start ≤ limit ∧ limit ≤ coord x.shape d := by
  rcases border_eq_some h with ⟨hpresent, -⟩ | ⟨-, z, -, hz⟩
  · exact .inl (not_not.mp (of_decide_eq_false hpresent))
  · obtain ⟨hstart, hle, hlimit, -⟩ := along_of_slice hd hz
    exact .inr ⟨hstart, hle, hlimit⟩

theorem gathers_wrap {d : Nat} {lhs rhs : Int} (hy : (Op.wrap d lhs rhs).apply [x] = some y) :
    (0 ≤ lhs ∧ lhs ≤ coord x.shape d) ∧ (0 ≤ rhs ∧ rhs ≤ coord x.shape d) ∧
      Gathers (x.shape.set d (lhs + (coord x.shape d + rhs)).toNat)
        (fun e k => if e = d then place (.wrap d lhs rhs) (coord x.shape d) k else k) x y := by
  obtain ⟨ps, hps, hconcat⟩ := bind_eq_some_iff.mp hy
  have hd : d < x.shape.length := lt_of_inputs hps hconcat
  obtain ⟨sl0, sl1, hsl0, hsl1, rfl⟩ := exists_of_bind₂ hps
  have hlhs := border_bounds hd hsl0
  have hrhs := border_bounds hd hsl1
  obtain ⟨l, rfl⟩ := Int.eq_ofNat_of_zero_le (by omega : 0 ≤ lhs)
  obtain ⟨r, rfl⟩ := Int.eq_ofNat_of_zero_le (by omega : 0 ≤ rhs)
  refine ⟨by omega, by omega, ?_⟩
  obtain ⟨y', hy', halong⟩ := along_lowerWrap hd (Along.self hd) (by omega : l ≤ coord x.shape d)
    (by omega : r ≤ coord x.shape d)
  have heq : lowerWrap d l r x = some y := by
    rw [lowerWrap]
    simp only [hsl0, hsl1, bind_eq_bind, bind_some]
    exact hconcat
  cases hy'.symm.trans heq
  rw [show ((l : Int) + (coord x.shape d + r)).toNat = l + (coord x.shape d + r) by omega]
  refine Along.gathers hd (halong.congr fun idx _ k _ => ?_)
  rw [appendLine, appendLine, place, Int.toNat_natCast]
  split_ifs
  · rfl
  · rfl
  · rfl

theorem gathers_extend {d : Nat} {lhs rhs : Int} (hy : (Op.extend d lhs rhs).apply [x] = some y) :
    (0 ≤ lhs ∧ lhs ≤ coord x.shape d) ∧ (0 ≤ rhs ∧ rhs ≤ coord x.shape d) ∧
      Gathers (x.shape.set d (lhs + (coord x.shape d + rhs)).toNat)
        (fun e k => if e = d then place (.extend d lhs rhs) (coord x.shape d) k else k) x y := by
  obtain ⟨ps, hps, hconcat⟩ := bind_eq_some_iff.mp hy
  have hd : d < x.shape.length := lt_of_inputs hps hconcat
  obtain ⟨sl0, sl1, hsl0, hsl1, rfl⟩ := exists_of_bind₂ hps
  have hlhs := border_bounds hd hsl0
  have hrhs := border_bounds hd hsl1
  obtain ⟨l, rfl⟩ := Int.eq_ofNat_of_zero_le (by omega : 0 ≤ lhs)
  obtain ⟨r, rfl⟩ := Int.eq_ofNat_of_zero_le (by omega : 0 ≤ rhs)
  refine ⟨by omega, by omega, ?_⟩
  obtain ⟨y', hy', halong⟩ := along_lowerExtend hd (Along.self hd) (by omega : l ≤ coord x.shape d)
    (by omega : r ≤ coord x.shape d)
  have heq : lowerExtend d l r x = some y := by
    rw [lowerExtend]
    simp only [hsl0, hsl1, bind_eq_bind, bind_some]
    exact hconcat
  cases hy'.symm.trans heq
  rw [show ((l : Int) + (coord x.shape d + r)).toNat = l + (coord x.shape d + r) by omega]
  refine Along.gathers hd (halong.congr fun idx _ k _ => ?_)
  rw [appendLine, appendLine, place, Int.toNat_natCast, Int.toNat_natCast]
  split_ifs
  · rfl
  · rfl
  · rfl

theorem gathers_rotate {d : Nat} {amount : Int} (hy : (Op.rotate d amount).apply [x] = some y) :
    (0 ≤ amount ∧ amount ≤ coord x.shape d) ∧ Gathers (x.shape.set d (coord x.shape d))
        (fun e k => if e = d then place (.rotate d amount) (coord x.shape d) k else k) x y := by
  obtain ⟨ps, hps, hconcat⟩ := bind_eq_some_iff.mp hy
  have hd : d < x.shape.length := lt_of_inputs hps hconcat
  obtain ⟨sl0, sl1, hsl0, hsl1, rfl⟩ := exists_of_bind₂ hps
  obtain ⟨hlow, hhigh, -, -⟩ := along_of_slice hd hsl0
  obtain ⟨a, rfl⟩ := Int.eq_ofNat_of_zero_le hlow
  refine ⟨by omega, ?_⟩
  obtain ⟨y', hy', halong⟩ := along_lowerRotate hd (Along.self hd) (by omega : a ≤ coord x.shape d)
  have heq : lowerRotate d a x = some y := by
    rw [lowerRotate]
    simp only [hsl0, hsl1, bind_eq_bind, bind_some]
    exact hconcat
  cases hy'.symm.trans heq
  refine Along.gathers hd (halong.congr fun idx _ k _ => ?_)
  rw [appendLine, place, Int.toNat_natCast]
  split_ifs
  · rfl
  · rfl

theorem slice_shift {d m : Nat} {σ : Nat → Nat} {e : SliceDim} {δ : Int} (hd : d < x.shape.length)
    (hy : Gathers (x.shape.set d m) (fun i k => if i = d then σ k else k) x y) (hz : slice ds y = some z)
    (he : ds[d]? = some e) (hlow : 0 ≤ e.start + δ) (hhigh : e.limit + δ ≤ coord x.shape d)
    (hplace : ∀ k : Nat, e.start ≤ k → k < e.limit → (σ k : Int) = k + δ) :
    ∃ w, slice (ds.set d ⟨e.start + δ, e.limit + δ, e.stride⟩) x = some w ∧ Same w z := by
  obtain ⟨hok, hgathers⟩ := gathers_slice hz
  rw [hy.shape_eq] at hok
  have hlen : ds.length = x.shape.length := by rw [hok.length_eq, length_set]
  obtain ⟨hdd, rfl⟩ := List.getElem?_eq_some_iff.mp he
  have hokAt : ∀ i (hi : i < ds.length), ds[i].Ok (coord (x.shape.set d m) i) := by
    intro i hi
    have hi' : i < (x.shape.set d m).length := hok.length_eq ▸ hi
    rw [coord_eq_getElem hi']
    exact (forall₂_iff_get.mp hok).2 i hi hi'
  have hoks : Forall₂ SliceDim.Ok (ds.set d ⟨ds[d].start + δ, ds[d].limit + δ, ds[d].stride⟩)
      x.shape := by
    refine forall₂_iff_get.mpr ⟨by rw [length_set, hlen], fun i hi hi' => ?_⟩
    rw [length_set] at hi
    have hoki := hokAt i hi
    rw [get_eq_getElem, get_eq_getElem]
    dsimp only
    rw [getElem_set]
    split
    · rename_i hid
      subst hid
      rw [coord_eq_getElem hi'] at hhigh
      exact ⟨hlow, by have := hoki.2.1; dsimp only; omega, hhigh, hoki.2.2.2⟩
    · rename_i hid
      rwa [coord_set_of_ne (Ne.symm hid), coord_eq_getElem hi'] at hoki
  obtain ⟨w, hw⟩ : ∃ w, slice (ds.set d ⟨ds[d].start + δ, ds[d].limit + δ, ds[d].stride⟩) x = some w := by
    rw [slice]
    exact ⟨_, if_pos hoks⟩
  obtain ⟨-, hgathers'⟩ := gathers_slice hw
  have hsizes : (ds.set d ⟨ds[d].start + δ, ds[d].limit + δ, ds[d].stride⟩).map SliceDim.size =
      ds.map SliceDim.size := by
    refine ext_getElem (by simp) fun i hi hi' => ?_
    rw [getElem_map, getElem_map, getElem_set]
    split
    · rename_i hid
      subst hid
      rw [SliceDim.size, SliceDim.size]
      simp only [Int.add_sub_add_right]
    · rfl
  rw [hsizes] at hgathers'
  have hlt : ∀ i < (ds.map SliceDim.size).length, ∀ k < coord (ds.map SliceDim.size) i,
      sliceSource ds i k < coord (x.shape.set d m) i := by
    intro i hi k hk
    rw [length_map] at hi
    rw [coord_map _ _ hi] at hk
    rw [sliceSource, getElem?_eq_getElem hi]
    exact SliceDim.source_lt (hokAt i hi) hk
  have htrans := hy.trans hgathers (by rw [length_map, length_set, hlen]) hlt
  refine ⟨w, hw, hgathers'.same (htrans.congr fun i hi k hk => ?_)⟩
  rw [length_map] at hi
  rw [coord_map _ _ hi] at hk
  rw [sliceSource, sliceSource, getElem?_eq_getElem hi, getElem?_set]
  by_cases hid : i = d
  · subst hid
    rw [if_pos rfl, if_pos rfl, if_pos hi]
    change σ (SliceDim.source ds[i] k) = (ds[i].start + δ + k * ds[i].stride).toNat
    obtain ⟨hstart, hle, -, hstride⟩ := hokAt i hi
    have hmul : 0 ≤ (k : Int) * ds[i].stride := mul_nonneg (Int.natCast_nonneg k) hstride.le
    have hsrc : ((SliceDim.source ds[i] k : Nat) : Int) = ds[i].start + k * ds[i].stride := by
      rw [SliceDim.source]
      omega
    have hlimit : ds[i].Ok ds[i].limit.toNat := ⟨hstart, hle, by omega, hstride⟩
    have hbelow := SliceDim.source_lt hlimit hk
    have hσ := hplace (SliceDim.source ds[i] k) (by omega) (by omega)
    omega
  · rw [if_neg hid, if_neg (Ne.symm hid), getElem?_eq_getElem hi]

theorem SliceInternal_eq_some {res : Option (Tensor α)} (h : SliceInternal op x ds = some res) :
    ∃ actual e i offset a, op.actualStartSizes x.shape = some actual ∧ ds[op.concatDim]? = some e ∧
      findTargetInput e.start e.limit 0 (op.inputSizes [x.shape]) = some (i, offset) ∧
      actual[i]? = some a ∧
      res = slice (ds.set op.concatDim ⟨e.start + (a - offset), e.limit + (a - offset), e.stride⟩) x := by
  rw [SliceInternal] at h
  obtain ⟨actual, hactual, h⟩ := bind_eq_some_iff.mp h
  obtain ⟨e, he, h⟩ := bind_eq_some_iff.mp h
  obtain ⟨⟨i, offset⟩, htarget, h⟩ := bind_eq_some_iff.mp h
  obtain ⟨a, ha, h⟩ := bind_eq_some_iff.mp h
  refine ⟨actual, e, i, offset, a, hactual, he, htarget, ha, ?_⟩
  rw [show e.start + (a - offset) = e.start - offset + a by omega,
    show e.limit + (a - offset) = e.limit - offset + a by omega]
  exact (some.inj h).symm

theorem slicePreserves_of_holds {shape : List Nat} (h : SliceHolds op shape ds) :
    SlicePreserves α op shape ds := by
  intro x y z hshape hy hz res hres
  subst hshape
  obtain ⟨actual, e, i, offset, a, hactual, he, htarget, ha, rfl⟩ := SliceInternal_eq_some hres
  have hd : op.concatDim < x.shape.length := by
    obtain ⟨ps, hps, hconcat⟩ := bind_eq_some_iff.mp hy
    exact lt_of_inputs hps hconcat
  cases op with
  | concatenate dim => cases hactual
  | wrap dim lhs rhs =>
    cases hactual
    obtain ⟨hlhs, hrhs, hgathers⟩ := gathers_wrap hy
    rcases target_of_three htarget with ⟨rfl, rfl, hlow, hhigh⟩ | ⟨rfl, rfl, hlow, hhigh, -⟩ |
      ⟨rfl, rfl, hlow, hhigh, -⟩
    all_goals
      cases ha
      refine slice_shift (d := dim) hd hgathers hz he ?_ ?_ fun k hk hk' => ?_
      · omega
      · omega
      · rw [place]
        split_ifs <;> omega
  | extend dim lhs rhs =>
    cases hactual
    obtain ⟨hlhs, hrhs, hgathers⟩ := gathers_extend hy
    have hlimit := h e he
    rcases target_of_three htarget with ⟨rfl, rfl, hlow, hhigh⟩ | ⟨rfl, rfl, hlow, hhigh, -⟩ |
      ⟨rfl, rfl, hlow, hhigh, hnot⟩
    iterate 2
      · cases ha
        refine slice_shift (d := dim) hd hgathers hz he ?_ ?_ fun k hk hk' => ?_
        · omega
        · omega
        · rw [place]
          split_ifs <;> omega
    · omega
  | rotate dim amount =>
    cases hactual
    obtain ⟨hamount, hgathers⟩ := gathers_rotate hy
    rcases target_of_two htarget with ⟨rfl, rfl, hlow, hhigh⟩ | ⟨rfl, rfl, hlow, hhigh, -⟩
    all_goals
      cases ha
      refine slice_shift (d := dim) hd hgathers hz he ?_ ?_ fun k hk hk' => ?_
      · omega
      · omega
      · rw [place]
        split_ifs <;> omega

/-- A slice that the pattern fires on is right if and only if it does not reach into what an `extend`
appends. -/
theorem slicePreserves_iff (hy : op.apply [x] = some y) (hz : slice ds y = some z) {res : Option (Tensor α)}
    (hfires : SliceInternal op x ds = some res) : SlicePreserves α op x.shape ds ↔ SliceHolds op x.shape ds := by
  refine ⟨fun h => ?_, slicePreserves_of_holds⟩
  cases op with
  | concatenate dim | wrap dim lhs rhs | rotate dim amount => trivial
  | extend dim lhs rhs =>
    intro e he
    by_contra hlimit
    obtain ⟨w, hw, -⟩ := h x y z rfl hy hz res hfires
    obtain ⟨actual, e', i, offset, a, hactual, he', htarget, ha, rfl⟩ := SliceInternal_eq_some hfires
    cases he.symm.trans he'
    cases hactual
    obtain ⟨hlhs, -, -⟩ := gathers_extend hy
    -- The slice that is built starts after the operand.
    rcases target_of_three htarget with ⟨-, -, hlow, hhigh⟩ | ⟨-, -, hlow, hhigh, -⟩ |
      ⟨rfl, rfl, -, -, -⟩
    · omega
    · omega
    · cases ha
      obtain ⟨hdd, -⟩ := List.getElem?_eq_some_iff.mp he
      have hok := (gathers_slice hw).1
      have hdx : dim < x.shape.length := by
        rw [← hok.length_eq, length_set]
        exact hdd
      have hat := (forall₂_iff_get.mp hok).2 dim (by rwa [length_set]) hdx
      simp only [Op.concatDim, get_eq_getElem, getElem_set_self, ← coord_eq_getElem hdx] at hat
      have hfits := hat.2.2.1
      dsimp only at hfits
      omega

end

def constantStart (c : Int) : Start := i32Start c true

end EnzymeJax.Regions
