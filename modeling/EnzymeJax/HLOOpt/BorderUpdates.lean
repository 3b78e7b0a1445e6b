import EnzymeJax.Communication.Lowering
import EnzymeJax.HLOOpt.DUSDUSConcat
import EnzymeJax.HLOOpt.OverlapTests
import EnzymeJax.Library.Sourced

/-!
# Updates of both borders

Two stacked updates along one dimension are replaced by one, of what is between them extended or padded. An
extension repeats what it extends, which may be smaller than the borders, and start indices out of bounds are
clamped, of one update as of two.
-/

namespace EnzymeJax.BorderUpdates

open Tensor OverlapTests DUSDUSConcat Option Function
open List hiding allSome

/-- A slice of the tensor that `dus2` updates, or of one that this was made of by so many updates. -/
structure Border where
  dims : List SliceDim
  depth : Nat

/-- What is known of the ops: `dus` updates the result of `dus2`. -/
structure Stack (V : Type) where
  shape : List Nat
  dus : Dus V
  dus2 : Dus V
  /-- The updates that the operand of `dus2` is made by, the last one first. -/
  chain : List (Dus V)
  /-- The slices of the result of `dus2`. -/
  middleSlices : List (List SliceDim)

/-- The update with the extended or padded slice. -/
structure Merged (V : Type) where
  diffidx : Nat
  prestart : List Int
  prelimit : List Int
  lhs : Nat
  rhs : Nat
  startIndices : List V

variable {V : Type}

section

variable (start : V → StartIndex)

/-- A `dynamic_update_slice` that the slice may read nothing of, as far as can be told. -/
def avoids (dims : List SliceDim) (dus : Dus V) : Bool :=
  !mayReadMemoryWrittenTo dims (dus.startIndices.map start) dus.updateShape

/-- The operand of the slice is found behind updates that it may read nothing of. -/
def sliceOperandIsEquivalentTo (dims : List SliceDim) : Nat → List (Dus V) → Bool
  | 0, _ => true
  | depth + 1, dus :: chain => avoids start dims dus && sliceOperandIsEquivalentTo dims depth chain
  | _ + 1, [] => false

/-- The constants that the update starts at. -/
def constantStarts (dus : Dus V) : Option (List Int) :=
  allSome (dus.startIndices.map fun v => (start v).getSExtValue)

/-- One update instead of two, `left` that starts at `idx0` along the dimension and `right` that starts at `idx1`. -/
def merge (starts : List Int) (update : List Nat) (d : Nat) (left right : Dus V) (idx0 idx1 : Int) : Merged V :=
  let prestart := starts.set d (idx0 + coord left.updateShape d)
  let prelimit := (List.zipWith (fun (s : Int) (n : Nat) => s + n) prestart update).set d idx1
  ⟨d, prestart, prelimit, coord left.updateShape d, coord right.updateShape d, left.startIndices⟩

variable [DecidableEq V] (stack : Stack V)

/-- What the patterns have in common: the constants and the dimension that differs, with its two start indices. -/
def matchStack : Option (List Int × Nat × Int × Int) := do
  guard (stack.middleSlices.all fun dims => avoids start dims stack.dus)
  let starts ← constantStarts start stack.dus
  let d ← diffidx stack.dus stack.dus2
  guard (∀ i < stack.dus.startIndices.length, i ≠ d → coord stack.dus.updateShape i = coord stack.dus2.updateShape i)
  let start0 ← stack.dus.startIndices[d]?
  let start1 ← stack.dus2.startIndices[d]?
  let idx0 ← (start start0).getSExtValue
  let idx1 ← (start start1).getSExtValue
  return (starts, d, idx0, idx1)

/-- The slice takes what an update with the same extents writes, but for dimension `d`. -/
def sameRegion (starts : List Int) (d : Nat) (update : List Nat) (dims : List SliceDim) : Prop :=
  ∀ i < starts.length, (sliceDim dims i).stride = 1 ∧
    (i ≠ d → (sliceDim dims i).start = starts.getD i 0 ∧ (sliceDim dims i).size = coord update i)

instance (starts : List Int) (d : Nat) (update : List Nat) (dims : List SliceDim) :
    Decidable (sameRegion starts d update dims) := inferInstanceAs (Decidable (∀ i < _, _ ∧ (_ → _ ∧ _)))

def DUSDUSToDUSExtend (slice slice2 : Border) : Option (Merged V) := do
  guard (sliceOperandIsEquivalentTo start slice.dims slice.depth stack.chain)
  guard (sliceOperandIsEquivalentTo start slice2.dims slice2.depth stack.chain)
  let (starts, d, idx0, idx1) ← matchStack start stack
  guard (sameRegion starts d stack.dus.updateShape slice.dims)
  guard (sameRegion starts d stack.dus.updateShape slice2.dims)
  let size0 := coord stack.dus.updateShape d
  let size1 := coord stack.dus2.updateShape d
  if idx0 + size0 < idx1 ∧ (sliceDim slice.dims d).start = idx0 + size0 ∧ (sliceDim slice2.dims d).limit = idx1 then
    -- update, then what is between, then update2
    return merge starts stack.dus.updateShape d stack.dus stack.dus2 idx0 idx1
  else if idx1 + size1 < idx0 ∧ (sliceDim slice2.dims d).start = idx1 + size1 ∧
      (sliceDim slice.dims d).limit = idx0 then
    -- update2, then what is between, then update
    return merge starts stack.dus.updateShape d stack.dus2 stack.dus idx1 idx0
  else none

/-- The updates are splats, of `cst` and `cst2`. -/
def DUSDUSToDUSPad {α : Type} [DecidableEq α] (cst cst2 : α) : Option (Merged V) := do
  guard (cst = cst2)
  let (starts, d, idx0, idx1) ← matchStack start stack
  let size0 := coord stack.dus.updateShape d
  let size1 := coord stack.dus2.updateShape d
  if idx0 + size0 < idx1 then
    return merge starts stack.dus.updateShape d stack.dus stack.dus2 idx0 idx1
  else if idx1 + size1 < idx0 then
    return merge starts stack.dus.updateShape d stack.dus2 stack.dus idx1 idx0
  else none

end

/-! ### What the ops compute -/

section

variable {α : Type} (env : V → Int)

/-- The tensor made of `base` by the updates. -/
def updated : List (Dus V) → List (Tensor α) → Tensor α → Option (Tensor α)
  | [], [], base => some base
  | dus :: chain, u :: us, base => (updated chain us base).bind (dynamicUpdateSlice (dus.startIndices.map env) u)
  | _, _, _ => none

def Border.eval (b : Border) (stack : Stack V) (us : List (Tensor α)) (base : Tensor α) : Option (Tensor α) :=
  (updated env (stack.chain.drop b.depth) (us.drop b.depth) base).bind (Tensor.slice b.dims)

/-- The result of `dus`, and the slices of the result of `dus2`. -/
def Stack.eval (stack : Stack V) (operand update update2 : Tensor α) : Option (Tensor α × List (Tensor α)) := do
  let y ← dynamicUpdateSlice (stack.dus2.startIndices.map env) update2 operand
  let z ← dynamicUpdateSlice (stack.dus.startIndices.map env) update y
  let zs ← allSome (stack.middleSlices.map fun dims => Tensor.slice dims y)
  return (z, zs)

/-- The result of the update with what `make` makes of the slice, and the slices of the result. -/
def Merged.eval (m : Merged V) (stack : Stack V) (make : Tensor α → Option (Tensor α)) (operand : Tensor α) :
    Option (Tensor α × List (Tensor α)) := do
  let preslice ← Tensor.slice (List.zipWith (fun s l => ⟨s, l, 1⟩) m.prestart m.prelimit) operand
  let update ← make preslice
  let z ← dynamicUpdateSlice (m.startIndices.map env) update operand
  let zs ← allSome (stack.middleSlices.map fun dims => Tensor.slice dims z)
  return (z, zs)

def Merged.pad (m : Merged V) (stack : Stack V) (v : α) : Tensor α → Option (Tensor α) :=
  Tensor.pad (padAlong stack.dus.updateShape.length m.diffidx m.lhs m.rhs) v

end

/-- Start indices that the ops may have in a run. -/
def Typed (start : V → StartIndex) (env : V → Int) : Prop := ∀ v, (start v).Has (env v)

/-- The same result, and the same slices. -/
def SameResults {α : Type} (r : Option (Tensor α × List (Tensor α))) (z : Tensor α) (zs : List (Tensor α)) : Prop :=
  ∃ z' zs', r = some (z', zs') ∧ Same z' z ∧ List.Forall₂ Same zs' zs

/-- Whatever the elements and the run-time start indices are, the update of the extended slice is the two updates. -/
def ExtendPreserves (α : Type) (start : V → StartIndex) (stack : Stack V) (slice slice2 : Border) (m : Merged V) :
    Prop :=
  ∀ (env : V → Int) (us : List (Tensor α)) (base operand update update2 z : Tensor α) (zs : List (Tensor α)),
    Typed start env → base.shape = stack.shape → List.Forall₂ (fun dus u => u.shape = dus.updateShape) stack.chain us →
      updated env stack.chain us base = some operand → slice.eval env stack us base = some update →
        slice2.eval env stack us base = some update2 → stack.eval env operand update update2 = some (z, zs) →
          SameResults (m.eval env stack (lowerExtend m.diffidx m.lhs m.rhs) operand) z zs

/-- Whatever the elements of the operand are, the update of the padded slice is the two updates. -/
def PadPreserves {α : Type} (start : V → StartIndex) (stack : Stack V) (v : α) (m : Merged V) : Prop :=
  ∀ (env : V → Int) (operand z : Tensor α) (zs : List (Tensor α)), Typed start env → operand.shape = stack.shape →
    stack.eval env operand (splat stack.dus.updateShape v) (splat stack.dus2.updateShape v) = some (z, zs) →
      SameResults (m.eval env stack (m.pad stack v) operand) z zs

/-! ### When the update is right -/

/-- The integer that a constant start index is. -/
def constantValue : StartIndex → Int
  | .constant _ n => n
  | .runtime => 0

/-- The slice takes nothing that the update writes, whatever the run-time start indices are. -/
def Unwritten (start : V → StartIndex) (shape : List Nat) (dims : List SliceDim) (dus : Dus V) : Prop :=
  ∀ env, Typed start env → ∀ c : Nat → Nat, (∀ e < dims.length, c e < (sliceDim dims e).size) →
    ∃ e < shape.length, ¬Writes (coord shape e) (coord dus.updateShape e) ((dus.startIndices.map env).getD e 0)
      ((sliceDim dims e).source (c e))

namespace Merged

variable (m : Merged V) (dim : Nat)

/-- Where the slice between the updates starts, as the constants are read. -/
def middle : Int := m.prestart.getD m.diffidx 0

def gap : Nat := (m.prelimit.getD m.diffidx 0 - m.prestart.getD m.diffidx 0).toNat

def size : Nat := m.lhs + (m.gap + m.rhs)

def InBounds : Prop := m.lhs ≤ m.middle ∧ m.middle + m.gap + m.rhs ≤ dim

/-- The slice is as wide as the borders, and starts where the new update does; the left update is behind the right
one. -/
def Repeats (start : V → StartIndex) : Prop :=
  let left := (m.startIndices[m.diffidx]?).elim 0 fun v => constantValue (start v)
  m.lhs = m.gap ∧ (m.rhs = 0 ∨ m.rhs = m.gap) ∧ clampStart dim m.size left = m.middle ∧
    clampStart dim m.lhs left = m.middle + m.gap + m.rhs

end Merged

def NoElements (stack : Stack V) (d : Nat) : Prop :=
  ∃ e < stack.shape.length, e ≠ d ∧ coord stack.dus.updateShape e = 0

/-- The slice between the borders is as wide as each, the update fits, no slice takes what is written behind it, and
the borders are where the constants say. -/
structure ExtendHoldsWhen (start : V → StartIndex) (stack : Stack V) (slice slice2 : Border) (m : Merged V) : Prop where
  lhs_le : m.lhs ≤ m.gap
  rhs_le : m.rhs ≤ m.gap
  size_le : m.size ≤ coord stack.shape m.diffidx
  slice_unwritten : ∀ dus ∈ stack.chain.take slice.depth, Unwritten start stack.shape slice.dims dus
  slice2_unwritten : ∀ dus ∈ stack.chain.take slice2.depth, Unwritten start stack.shape slice2.dims dus
  middle_unwritten : ∀ dims ∈ stack.middleSlices, Unwritten start stack.shape dims stack.dus
  in_place : NoElements stack m.diffidx ∨ m.InBounds (coord stack.shape m.diffidx) ∨
    m.Repeats (coord stack.shape m.diffidx) start

/-- The slice between the borders is within the operand, the update fits, and the borders are where the constants
say. -/
structure PadHoldsWhen (stack : Stack V) (m : Merged V) : Prop where
  preslice_ok : List.Forall₂ SliceDim.Ok (List.zipWith (fun s l => ⟨s, l, 1⟩) m.prestart m.prelimit) stack.shape
  size_le : m.size ≤ coord stack.shape m.diffidx
  in_place : NoElements stack m.diffidx ∨ m.InBounds (coord stack.shape m.diffidx)

/-- What the verifier asks of the updates and the slices. -/
structure Stack.Verified (start : V → StartIndex) (stack : Stack V) : Prop where
  typed : ∃ env, Typed start env
  updates : ∀ dus ∈ stack.dus :: stack.dus2 :: stack.chain, dus.startIndices.length = stack.shape.length ∧
    List.Forall₂ (· ≤ ·) dus.updateShape stack.shape
  middle_ok : ∀ dims ∈ stack.middleSlices, List.Forall₂ SliceDim.Ok dims stack.shape

/-- What the verifier asks of a slice that is the update of `dus`. -/
structure Border.Verified (b : Border) (shape : List Nat) (dus : Dus V) : Prop where
  ok : List.Forall₂ SliceDim.Ok b.dims shape
  size_eq : dus.updateShape = b.dims.map SliceDim.size

/-! ### Where an update is -/

/-- The constants of an update in the other dimensions, and its start index along `d`. -/
structure Placed (start : V → StartIndex) (shape : List Nat) (d : Nat) (s t : Nat → Nat) (dus : Dus V) (v : V) :
    Prop where
  length_eq : dus.startIndices.length = shape.length
  rank_eq : dus.updateShape.length = shape.length
  start_eq : dus.startIndices[d]? = some v
  constant_eq : ∀ e < shape.length, e ≠ d →
    ∃ w, dus.startIndices[e]? = some w ∧ (start w).getSExtValue = some (s e : Int)
  size_eq : ∀ e < shape.length, e ≠ d → coord dus.updateShape e = t e

section

variable {start : V → StartIndex} {stack : Stack V} {shape : List Nat} {d n : Nat} {s t : Nat → Nat} {dus : Dus V}
  {v : V} {env : V → Int} {dims : List SliceDim}

variable {e : Nat}

theorem getD_map {l : List V} {w : V} (h : l[e]? = some w) : (l.map env).getD e 0 = env w := by
  rw [getD_eq_getElem?_getD, getElem?_map, h]
  rfl

theorem Typed.haveValues (henv : Typed start env) (l : List V) : HaveValues (l.map start) (l.map env) := by
  refine ⟨by rw [length_map, length_map], fun e he => ?_⟩
  rw [length_map] at he
  rw [startAt, getD_eq_getElem _ _ (by rwa [length_map]), getElem_map,
    getD_eq_getElem _ _ (by rwa [length_map]), getElem_map]
  exact henv _

namespace Placed

variable (h : Placed start shape d s t dus v) (hfits : ∀ e < shape.length, e ≠ d → s e + t e ≤ coord shape e)

include h hfits

theorem updateStart_eq (henv : Typed start env) {sizes : List Nat}
    (hsizes : ∀ e < shape.length, coord sizes e = if e = d then n else t e) (he : e < shape.length) :
    updateStart shape sizes (dus.startIndices.map env) e =
      if e = d then clampStart (coord shape d) n (env v) else s e := by
  rw [updateStart, hsizes e he]
  by_cases hed : e = d
  · rw [if_pos hed, if_pos hed, hed, getD_map h.start_eq]
  · obtain ⟨w, hw, hread⟩ := h.constant_eq e he hed
    have heq := eq_of_getSExtValue (henv w) hread (Int.natCast_nonneg _)
    rw [if_neg hed, if_neg hed, getD_map hw, heq]
    exact clampStart_eq _ (hfits e he hed)

omit hfits in
theorem coord_eq {u : List Nat} (hu : u = dus.updateShape) (hn : coord dus.updateShape d = n)
    (he : e < shape.length) : coord u e = if e = d then n else t e := by
  rw [hu]
  split
  · rename_i hed
    rw [hed, hn]
  · rename_i hed
    exact h.size_eq e he hed

theorem unwritten_of_avoids {i : Int} (hi : (start v).getSExtValue = some i) (hpos : 0 ≤ i)
    (hle : i + coord dus.updateShape d ≤ coord shape d) (hdims : Forall₂ SliceDim.Ok dims shape)
    (havoids : avoids start dims dus = true) : Unwritten start shape dims dus := by
  obtain ⟨hlen, hok⟩ := forall₂_ok_iff.mp hdims
  rw [avoids, Bool.not_eq_true'] at havoids
  have hget : ∀ {e : Nat} {w : V}, dus.startIndices[e]? = some w →
      startAt (dus.startIndices.map start) e = start w := by
    intro e w hw
    rw [startAt, getD_eq_getElem?_getD, getElem?_map, hw]
    rfl
  have hrange : InRange shape dus.updateShape (dus.startIndices.map start) := by
    intro e he j hj
    by_cases hed : e = d
    · subst hed
      rw [hget h.start_eq, hi] at hj
      cases hj
      exact ⟨hpos, hle⟩
    · obtain ⟨w, hw, hread⟩ := h.constant_eq e he hed
      rw [hget hw, hread] at hj
      cases hj
      rw [h.size_eq e he hed]
      exact ⟨Int.natCast_nonneg _, by exact_mod_cast hfits e he hed⟩
  obtain ⟨e, he, hapart⟩ := apart_of_inRange hlen hok (by rw [length_map, h.length_eq, hlen])
    (h.rank_eq.trans hlen.symm) hrange havoids
  intro env henv c hc
  have hhas := (henv.haveValues dus.startIndices).2 e (by rw [length_map, h.length_eq]; exact he)
  exact ⟨e, he, hapart _ hhas _ (hc e (hlen.symm ▸ he))⟩

end Placed

theorem unwritten_of_noElements (he : e < shape.length) (hzero : coord dus.updateShape e = 0) :
    Unwritten start shape dims dus := by
  intro env _ c _
  refine ⟨e, he, fun hwrites => ?_⟩
  obtain ⟨hle, hlt⟩ := hwrites
  omega

end

/-! ### What the ops compute along the dimension -/

section

variable {α : Type} {start : V → StartIndex} {stack : Stack V} {shape : List Nat} {d n n₁ n₂ : Nat}
  {s t : Nat → Nat} {dus : Dus V} {v v₁ v₂ : V} {env : V → Int} {dims : List SliceDim} {a : α}
  {σ σ₁ σ₂ φ : Nat → Option Nat} {x y z z' u u₁ u₂ : Tensor α} {zs : List (Tensor α)} {c : Nat → Nat}

theorem Stack.eval_eq_some (h : stack.eval env x u₁ u₂ = some (z, zs)) : ∃ y,
    dynamicUpdateSlice (stack.dus2.startIndices.map env) u₂ x = some y ∧
      dynamicUpdateSlice (stack.dus.startIndices.map env) u₁ y = some z ∧
        allSome (stack.middleSlices.map fun dims => Tensor.slice dims y) = some zs := by
  obtain ⟨y, hy, h⟩ := bind_eq_some_iff.mp h
  obtain ⟨z', hz, h⟩ := bind_eq_some_iff.mp h
  obtain ⟨zs', hzs, h⟩ := bind_eq_some_iff.mp h
  cases some.inj h
  exact ⟨y, hy, hz, hzs⟩

theorem Placed.sourced (hd : d < x.shape.length) (h : Placed start x.shape d s t dus v)
    (hfits : ∀ e < x.shape.length, e ≠ d → s e + t e ≤ coord x.shape e) (henv : Typed start env)
    (hu : Drawn d s t a σ n x u) (hy : Sourced d s t a φ x y)
    (hz : dynamicUpdateSlice (dus.startIndices.map env) u y = some z) :
    Sourced d s t a (spliced (clampStart (coord x.shape d) n (env v)) n σ φ) x z :=
  hy.update hd hu (fun _ he => h.updateStart_eq hfits henv hu.coord_eq he) hz

theorem Placed.exists_update (h : Placed start x.shape d s t dus v)
    (hfits : ∀ e < x.shape.length, e ≠ d → s e + t e ≤ coord x.shape e) (hu : Drawn d s t a σ n x u)
    (hn : n ≤ coord x.shape d) (hy : y.shape = x.shape) :
    ∃ z, dynamicUpdateSlice (dus.startIndices.map env) u y = some z := by
  refine ⟨_, if_pos ⟨by rw [length_map, h.length_eq, hy], ?_⟩⟩
  rw [hy]
  refine forall₂_iff_get.mpr ⟨hu.rank_eq, fun e he he' => ?_⟩
  rw [get_eq_getElem, get_eq_getElem, ← coord_eq_getElem he, ← coord_eq_getElem he', hu.coord_eq e he']
  split
  · rename_i hed
    rwa [hed]
  · rename_i hed
    have hle := hfits e he' hed
    omega

theorem read_of_unwritten (hun : Unwritten start y.shape dims dus) (henv : Typed start env)
    (hdims : Forall₂ SliceDim.Ok dims y.shape) (hu : u.shape = dus.updateShape)
    (hz : dynamicUpdateSlice (dus.startIndices.map env) u y = some z)
    (hc : ∀ e < dims.length, c e < (sliceDim dims e).size) :
    (z.read fun e => (sliceDim dims e).source (c e)) = y.read fun e => (sliceDim dims e).source (c e) := by
  obtain ⟨hlen, hok⟩ := forall₂_ok_iff.mp hdims
  obtain ⟨-, -, hread⟩ := read_dynamicUpdateSlice hz
  refine (hread _ fun e he => ?_).2 fun hall => ?_
  · have he' : e < dims.length := hlen.symm ▸ he
    exact SliceDim.source_lt (hok e he') (hc e he')
  · obtain ⟨e, he, hnot⟩ := hun env henv c hc
    have hwrites := hall e he
    rw [hu] at hwrites
    exact hnot hwrites

theorem slices_same (hmiddle : ∀ dims ∈ stack.middleSlices, Forall₂ SliceDim.Ok dims y.shape)
    (hzs : allSome (stack.middleSlices.map fun dims => Tensor.slice dims y) = some zs) (hshape : z'.shape = y.shape)
    (hread : ∀ dims ∈ stack.middleSlices, ∀ c : Nat → Nat, (∀ e < dims.length, c e < (sliceDim dims e).size) →
      (z'.read fun e => (sliceDim dims e).source (c e)) = y.read fun e => (sliceDim dims e).source (c e)) :
    ∃ zs', allSome (stack.middleSlices.map fun dims => Tensor.slice dims z') = some zs' ∧ Forall₂ Same zs' zs := by
  generalize stack.middleSlices = slices at hmiddle hzs hread
  induction slices generalizing zs with
  | nil =>
    cases hzs
    exact ⟨[], rfl, .nil⟩
  | cons dims slices ih =>
    obtain ⟨w, hw, hrest⟩ : ∃ w, Tensor.slice dims y = some w ∧ ∃ ws,
        allSome (slices.map fun dims => Tensor.slice dims y) = some ws ∧ zs = w :: ws := by
      have hforall := allSome_map_iff.mp hzs
      obtain ⟨w, ws, hw, hws, rfl⟩ := forall₂_cons_left_iff.mp hforall
      exact ⟨w, hw, ws, allSome_map_iff.mpr hws, rfl⟩
    obtain ⟨ws, hws, rfl⟩ := hrest
    obtain ⟨ws', hws', hsame⟩ := ih (fun dims hdims => hmiddle dims (mem_cons_of_mem _ hdims)) hws
      fun dims hdims => hread dims (mem_cons_of_mem _ hdims)
    obtain ⟨hlen, hok⟩ := forall₂_ok_iff.mp (hmiddle dims mem_cons_self)
    obtain ⟨w', hw'⟩ : ∃ w', Tensor.slice dims z' = some w' :=
      exists_slice (hlen.trans (congrArg _ hshape.symm)) (hshape.symm ▸ hok)
    obtain ⟨-, hwshape, -, hwread⟩ := read_slice hw
    obtain ⟨-, hwshape', -, hwread'⟩ := read_slice hw'
    refine ⟨w' :: ws', ?_, .cons (same_of_read (hwshape'.trans hwshape.symm) fun c hc => ?_) hsame⟩
    · rw [map_cons, hw', allSome, hws']
      rfl
    · rw [hwread' c hc, hwread c (by rwa [hwshape, ← hwshape'])]
      refine hread dims mem_cons_self c fun e he => ?_
      rw [← coord_slice hw' he]
      exact hc e (by rwa [length_slice hw'])

theorem read_of_slices_same {zs' : List (Tensor α)}
    (hzs : allSome (stack.middleSlices.map fun dims => Tensor.slice dims y) = some zs)
    (hzs' : allSome (stack.middleSlices.map fun dims => Tensor.slice dims z') = some zs')
    (hsame : Forall₂ Same zs' zs) (hdims : dims ∈ stack.middleSlices)
    (hc : ∀ e < dims.length, c e < (sliceDim dims e).size) :
    (z'.read fun e => (sliceDim dims e).source (c e)) = y.read fun e => (sliceDim dims e).source (c e) := by
  have hpairs := forall₂_iff_get.mp (allSome_map_iff.mp hzs)
  have hpairs' := forall₂_iff_get.mp (allSome_map_iff.mp hzs')
  obtain ⟨i, hi, rfl⟩ := mem_iff_getElem.mp hdims
  have hw := hpairs.2 i hi (hpairs.1 ▸ hi)
  have hw' := hpairs'.2 i hi (hpairs'.1 ▸ hi)
  have hat := (forall₂_iff_get.mp hsame).2 i (hpairs'.1 ▸ hi) (hpairs.1 ▸ hi)
  obtain ⟨-, hwshape, -, hwread⟩ := read_slice hw
  obtain ⟨-, hwshape', -, hwread'⟩ := read_slice hw'
  have hwithin : Within (zs'.get ⟨i, hpairs'.1 ▸ hi⟩).shape c := by
    intro e he
    rw [length_slice hw'] at he
    rw [coord_slice hw' he]
    exact hc e he
  have heq := hat.read_eq hwithin
  rwa [hwread' c hwithin, hwread c (hat.shape_eq ▸ hwithin)] at heq

end

/-! ### What is known when a pattern fires -/

def Merged.preslice (m : Merged V) : List SliceDim := List.zipWith (fun s l => ⟨s, l, 1⟩) m.prestart m.prelimit

structure Fired (start : V → StartIndex) (stack : Stack V) (m : Merged V) (starts : List Int) (left right : Dus V)
    (vl vr : V) : Prop where
  sides : left = stack.dus ∧ right = stack.dus2 ∨ left = stack.dus2 ∧ right = stack.dus
  lt : m.diffidx < stack.shape.length
  constants : ∀ e < stack.shape.length,
    ∃ w, stack.dus.startIndices[e]? = some w ∧ (start w).getSExtValue = some (starts.getD e 0)
  starts_eq : ∀ e < stack.shape.length, e ≠ m.diffidx → stack.dus.startIndices[e]? = stack.dus2.startIndices[e]?
  sizes_eq : ∀ e < stack.shape.length, e ≠ m.diffidx → coord stack.dus.updateShape e = coord stack.dus2.updateShape e
  left_eq : left.startIndices[m.diffidx]? = some vl
  right_eq : right.startIndices[m.diffidx]? = some vr
  left_read : (start vl).getSExtValue = some (m.middle - m.lhs)
  right_read : (start vr).getSExtValue = some (m.middle + m.gap)
  gap_pos : 0 < m.gap
  lhs_eq : coord left.updateShape m.diffidx = m.lhs
  rhs_eq : coord right.updateShape m.diffidx = m.rhs
  startIndices_eq : m.startIndices = left.startIndices
  length_preslice : m.preslice.length = stack.shape.length
  preslice_eq : ∀ e < stack.shape.length, sliceDim m.preslice e =
    if e = m.diffidx then ⟨m.middle, m.middle + m.gap, 1⟩
    else ⟨starts.getD e 0, starts.getD e 0 + coord stack.dus.updateShape e, 1⟩
  avoids : ∀ dims ∈ stack.middleSlices, avoids start dims stack.dus = true

section

variable {start : V → StartIndex} {stack : Stack V} {m : Merged V} {starts : List Int} {left right : Dus V}
  {vl vr : V} {d : Nat} {idx0 idx1 idxl idxr : Int} {slice slice2 : Border}

theorem matchStack_eq_some [DecidableEq V] (h : matchStack start stack = some (starts, d, idx0, idx1)) :
    (∀ dims ∈ stack.middleSlices, BorderUpdates.avoids start dims stack.dus = true) ∧
      constantStarts start stack.dus = some starts ∧ d < stack.dus.startIndices.length ∧
        (∀ e < stack.dus.startIndices.length, e ≠ d → stack.dus.startIndices[e]? = stack.dus2.startIndices[e]? ∧
          coord stack.dus.updateShape e = coord stack.dus2.updateShape e) ∧
        ∃ v₀ v₁, stack.dus.startIndices[d]? = some v₀ ∧ stack.dus2.startIndices[d]? = some v₁ ∧
          (start v₀).getSExtValue = some idx0 ∧ (start v₁).getSExtValue = some idx1 := by
  obtain ⟨_, hmiddle, h⟩ := bind_eq_some_iff.mp h
  obtain ⟨starts', hstarts, h⟩ := bind_eq_some_iff.mp h
  obtain ⟨d', hd, h⟩ := bind_eq_some_iff.mp h
  obtain ⟨_, hsizes, h⟩ := bind_eq_some_iff.mp h
  obtain ⟨v₀, hv₀, h⟩ := bind_eq_some_iff.mp h
  obtain ⟨v₁, hv₁, h⟩ := bind_eq_some_iff.mp h
  obtain ⟨i₀, hi₀, h⟩ := bind_eq_some_iff.mp h
  obtain ⟨i₁, hi₁, h⟩ := bind_eq_some_iff.mp h
  simp only [Option.pure_def, some.injEq, Prod.mk.injEq] at h
  obtain ⟨rfl, rfl, rfl, rfl⟩ := h
  obtain ⟨hlt, heq⟩ := startIndices_eq_of_diffidx hd
  rw [guard_eq_some'] at hmiddle hsizes
  exact ⟨all_eq_true.mp hmiddle, hstarts, hlt, fun e he hed => ⟨heq e he hed, hsizes e he hed⟩, v₀, v₁, hv₀,
    hv₁, hi₀, hi₁⟩

theorem fired_of_merge [DecidableEq V] (hv : stack.Verified start)
    (h : matchStack start stack = some (starts, d, idx0, idx1))
    (hsides : left = stack.dus ∧ right = stack.dus2 ∧ idxl = idx0 ∧ idxr = idx1 ∨
      left = stack.dus2 ∧ right = stack.dus ∧ idxl = idx1 ∧ idxr = idx0)
    (hgap : idxl + coord left.updateShape d < idxr)
    (hm : m = merge starts stack.dus.updateShape d left right idxl idxr) :
    ∃ vl vr, Fired start stack m starts left right vl vr ∧ m.diffidx = d ∧
      m.middle = idxl + coord left.updateShape d ∧ m.middle + m.gap = idxr := by
  obtain ⟨havoids, hstarts, hlt, hothers, v₀, v₁, hv₀, hv₁, hi₀, hi₁⟩ := matchStack_eq_some h
  obtain ⟨hlen, hfits⟩ := hv.updates stack.dus mem_cons_self
  rw [hlen] at hlt hothers
  have hpairs := forall₂_iff_get.mp (allSome_map_iff.mp hstarts)
  have hstartsLength : starts.length = stack.shape.length := hpairs.1.symm.trans hlen
  have hsum : (zipWith (fun (s : Int) (n : Nat) => s + n) (starts.set d (idxl + coord left.updateShape d))
      stack.dus.updateShape).length = stack.shape.length := by
    rw [length_zipWith, length_set, hstartsLength, hfits.length_eq, min_self]
  have hmiddle : m.middle = idxl + coord left.updateShape d := by
    rw [hm]
    exact (getD_set (hstartsLength.symm ▸ hlt)).trans (if_pos rfl)
  have hlimit : m.prelimit.getD m.diffidx 0 = idxr := by
    rw [hm]
    exact (getD_set (hsum.symm ▸ hlt)).trans (if_pos rfl)
  have hgapEq : m.middle + m.gap = idxr := by
    have hstart : m.prestart.getD m.diffidx 0 = m.middle := rfl
    rw [Merged.gap, hlimit, hstart]
    omega
  have hd : m.diffidx = d := by rw [hm]; rfl
  have hlengthPre : m.preslice.length = stack.shape.length := by
    rw [hm]
    simp only [Merged.preslice, merge, length_zipWith, length_set, hstartsLength, hfits.length_eq, min_self]
  have hpre : ∀ e < stack.shape.length, sliceDim m.preslice e =
      if e = m.diffidx then ⟨m.middle, m.middle + m.gap, 1⟩
      else ⟨starts.getD e 0, starts.getD e 0 + coord stack.dus.updateShape e, 1⟩ := by
    intro e he
    rw [sliceDim_eq_getElem (hlengthPre.symm ▸ he), hd, hgapEq, hmiddle]
    have he' : e < stack.dus.updateShape.length := hfits.length_eq.symm ▸ he
    have heStarts : e < starts.length := hstartsLength.symm ▸ he
    simp only [hm, Merged.preslice, merge, getElem_zipWith, getElem_set]
    by_cases hed : e = d
    · rw [if_pos hed.symm, if_pos hed.symm, if_pos hed]
    · rw [if_neg (Ne.symm hed), if_neg (Ne.symm hed), if_neg hed, getD_eq_getElem _ _ heStarts, coord_eq_getElem he']
  have hconstants : ∀ e < stack.shape.length,
      ∃ w, stack.dus.startIndices[e]? = some w ∧ (start w).getSExtValue = some (starts.getD e 0) := by
    intro e he
    have he' : e < stack.dus.startIndices.length := hlen.symm ▸ he
    have hat := hpairs.2 e he' (hstartsLength.symm ▸ he)
    refine ⟨stack.dus.startIndices[e], getElem?_eq_getElem he', ?_⟩
    rw [getD_eq_getElem _ _ (hstartsLength.symm ▸ he)]
    exact hat
  have hlhs : coord left.updateShape m.diffidx = m.lhs := by rw [hm]; rfl
  have hrhs : coord right.updateShape m.diffidx = m.rhs := by rw [hm]; rfl
  have hstartIndices : m.startIndices = left.startIndices := by rw [hm]; rfl
  have hlhs' : m.middle - m.lhs = idxl := by rw [hmiddle, ← hlhs, hd]; omega
  have hpos : 0 < m.gap := by omega
  subst hd
  rcases hsides with ⟨rfl, rfl, rfl, rfl⟩ | ⟨rfl, rfl, rfl, rfl⟩
  · exact ⟨v₀, v₁, ⟨.inl ⟨rfl, rfl⟩, hlt, hconstants, fun e he hed => (hothers e he hed).1,
      fun e he hed => (hothers e he hed).2, hv₀, hv₁, hlhs'.symm ▸ hi₀, hgapEq.symm ▸ hi₁, hpos, hlhs, hrhs,
      hstartIndices, hlengthPre, hpre, havoids⟩, rfl, hmiddle, hgapEq⟩
  · exact ⟨v₁, v₀, ⟨.inr ⟨rfl, rfl⟩, hlt, hconstants, fun e he hed => (hothers e he hed).1,
      fun e he hed => (hothers e he hed).2, hv₁, hv₀, hlhs'.symm ▸ hi₁, hgapEq.symm ▸ hi₀, hpos, hlhs, hrhs,
      hstartIndices, hlengthPre, hpre, havoids⟩, rfl, hmiddle, hgapEq⟩

end

/-! ### Two updates and one, along the dimension -/

section

variable {n m₀ g a b l r e q : Nat} {σ φ ψ : Nat → Option Nat} {i : Int}

/-- Position `k` of the extension of `g` elements, by `a` before and `b` after them. -/
def extendedFrom (g a b k : Nat) : Nat := if k < a then k else if k - a < g then k - a else g - b + (k - a - g)

/-- The elements of `l` on come from `m` on. -/
def ComesFrom (ψ : Nat → Option Nat) (l n m : Nat) : Prop := ∀ k < n, ψ (l + k) = some (m + k)

/-- What the positions of two updates are that do not meet, and of one update that is the same. -/
structure Agree (ψ : Nat → Option Nat) (l a m r b m' : Nat) : Prop where
  first : ComesFrom ψ l a m
  second : ComesFrom ψ r b m'
  apart : ∀ k < a, ∀ k' < b, l + k ≠ r + k'
  others : ∀ q, ¬(l ≤ q ∧ q < l + a) → ¬(r ≤ q ∧ q < r + b) → ψ q = some q

variable {m m' p : Nat}

theorem Agree.symm (h : Agree ψ l a m r b m') : Agree ψ r b m' l a m :=
  ⟨h.second, h.first, fun k hk k' hk' heq => h.apart k' hk' k hk heq.symm, fun q hl hr => h.others q hr hl⟩

theorem Agree.eq (h : Agree ψ l a m r b m') (q : Nat) :
    spliced l a (fun k => some (m + k)) (spliced r b (fun k => some (m' + k)) some) q = ψ q := by
  rw [spliced]
  split
  · rename_i hq
    obtain ⟨k, rfl⟩ := Nat.exists_eq_add_of_le hq.1
    rw [Nat.add_sub_cancel_left, h.first k (by omega)]
  · rename_i hq
    rw [spliced]
    split
    · rename_i hq'
      obtain ⟨k, rfl⟩ := Nat.exists_eq_add_of_le hq'.1
      rw [Nat.add_sub_cancel_left, h.second k (by omega)]
    · rename_i hq'
      exact (h.others q hq hq').symm

/-- Position `q` is of one of the updates, or of neither, and comes from `p`. -/
def ComesBy (l a r b m₀ g q p : Nat) : Prop :=
  (l ≤ q ∧ q < l + a ∧ p = m₀ + (q - l)) ∨ (r ≤ q ∧ q < r + b ∧ p = m₀ + g - b + (q - r)) ∨
    (¬(l ≤ q ∧ q < l + a) ∧ ¬(r ≤ q ∧ q < r + b) ∧ p = q)

theorem comesBy_of_left_newer
    (h : spliced l a (fun k => some (m₀ + k)) (spliced r b (fun k => some (m₀ + g - b + k)) some) q = some p) :
    ComesBy l a r b m₀ g q p := by
  rw [spliced] at h
  split at h
  · rename_i hq
    exact .inl ⟨hq.1, hq.2, (some.inj h).symm⟩
  · rename_i hq
    rw [spliced] at h
    split at h
    · rename_i hq'
      exact .inr (.inl ⟨hq'.1, hq'.2, (some.inj h).symm⟩)
    · rename_i hq'
      exact .inr (.inr ⟨hq, hq', (some.inj h).symm⟩)

theorem comesBy_of_right_newer
    (h : spliced r b (fun k => some (m₀ + g - b + k)) (spliced l a (fun k => some (m₀ + k)) some) q = some p) :
    ComesBy l a r b m₀ g q p := by
  rw [spliced] at h
  split at h
  · rename_i hq
    exact .inr (.inl ⟨hq.1, hq.2, (some.inj h).symm⟩)
  · rename_i hq
    rw [spliced] at h
    split at h
    · rename_i hq'
      exact .inl ⟨hq'.1, hq'.2, (some.inj h).symm⟩
    · rename_i hq'
      exact .inr (.inr ⟨hq', hq, (some.inj h).symm⟩)

theorem repeats_of_comesBy (hg : 0 < g) (ha : a ≤ g) (hb : b ≤ g) (hm : m₀ < a) (hr : r = m₀ + g) (hel : e ≤ l)
    (hle : l ≤ e + (g + b)) (hfirst : ComesBy l a r b m₀ g e m₀) (hmiddle : ComesBy l a r b m₀ g (e + a) m₀)
    (hlast : ComesBy l a r b m₀ g (e + (a + (g + b)) - 1) (m₀ + g - 1)) :
    a = g ∧ (b = 0 ∨ b = g) ∧ e = m₀ ∧ l = m₀ + g + b := by
  subst hr
  rcases hmiddle with hmiddle | hmiddle | hmiddle
  · rcases hfirst with hfirst | hfirst | hfirst
    · omega
    · rcases hlast with hlast | hlast | hlast
      · omega
      · omega
      · omega
    · rcases hlast with hlast | hlast | hlast
      · omega
      · omega
      · omega
  · rcases hlast with hlast | hlast | hlast
    · omega
    · omega
    · omega
  · omega

theorem inBounds_of_comesBy (hem : e + a ≤ m₀) (hr : r = m₀ + g ∨ r + b = n)
    (htotal : e + (a + (g + b)) ≤ n) (he : e + a = m₀ ∨ e + (a + (g + b)) = n)
    (hfirst : ComesBy l a r b m₀ g e m₀) (hmiddle : ComesBy l a r b m₀ g (e + a) m₀) : m₀ + g + b ≤ n := by
  by_contra
  rcases hmiddle with hmiddle | hmiddle | hmiddle
  · rcases hfirst with hfirst | hfirst | hfirst
    · omega
    · omega
    · omega
  · omega
  · omega

end

/-! ### The slice between the updates -/

/-- The updates and the slice between them, where the constants are those of positions in the operand. -/
structure Located (start : V → StartIndex) (stack : Stack V) (m : Merged V) (left right : Dus V) (vl vr : V)
    (s t : Nat → Nat) (m₀ : Nat) : Prop where
  middle_eq : m.middle = m₀
  fits : ∀ e < stack.shape.length, e ≠ m.diffidx → s e + t e ≤ coord stack.shape e
  left : Placed start stack.shape m.diffidx s t left vl
  right : Placed start stack.shape m.diffidx s t right vr
  size_eq : ∀ e < stack.shape.length, e ≠ m.diffidx → coord stack.dus.updateShape e = t e
  preslice_eq : ∀ e < stack.shape.length, (sliceDim m.preslice e).size = (if e = m.diffidx then m.gap else t e) ∧
      ∀ k, (sliceDim m.preslice e).source k = (if e = m.diffidx then m₀ else s e) + k
  preslice_ok : List.Forall₂ SliceDim.Ok m.preslice stack.shape
  le : m₀ + m.gap ≤ coord stack.shape m.diffidx

section

variable {α : Type} {start : V → StartIndex} {stack : Stack V} {m : Merged V} {starts : List Int} {left right : Dus V}
  {vl vr : V} {env : V → Int} {s t : Nat → Nat} {d l r g m₀ : Nat} {σ : Nat → Option Nat} {a : α} {x u y z : Tensor α}
  {dim : SliceDim}

theorem Fired.located (hf : Fired start stack m starts left right vl vr) (hv : stack.Verified start)
    (hfits : ∀ e < stack.shape.length, e ≠ m.diffidx → 0 ≤ starts.getD e 0 ∧
      starts.getD e 0 + coord stack.dus.updateShape e ≤ coord stack.shape e)
    (hpos : 0 ≤ m.middle) (hle : m.middle + m.gap ≤ coord stack.shape m.diffidx) :
    Located start stack m left right vl vr (fun e => (starts.getD e 0).toNat) (coord stack.dus.updateShape)
      m.middle.toNat := by
  obtain ⟨hlen, hupd⟩ := hv.updates stack.dus mem_cons_self
  obtain ⟨hlength2, hupdate2⟩ := hv.updates stack.dus2 (mem_cons_of_mem _ mem_cons_self)
  have hconstants : ∀ e < stack.shape.length, e ≠ m.diffidx → ∃ w, stack.dus.startIndices[e]? = some w ∧
      (start w).getSExtValue = some (((starts.getD e 0).toNat : Nat) : Int) := by
    intro e he hed
    rw [Int.toNat_of_nonneg (hfits e he hed).1]
    exact hf.constants e he
  -- the two updates differ along the dimension only
  have hdus : ∀ {v}, stack.dus.startIndices[m.diffidx]? = some v → Placed start stack.shape m.diffidx
      (fun e => (starts.getD e 0).toNat) (coord stack.dus.updateShape) stack.dus v := fun hstart =>
    ⟨hlen, hupd.length_eq, hstart, hconstants, fun _ _ _ => rfl⟩
  have hdus2 : ∀ {v}, stack.dus2.startIndices[m.diffidx]? = some v → Placed start stack.shape m.diffidx
      (fun e => (starts.getD e 0).toNat) (coord stack.dus.updateShape) stack.dus2 v := fun hstart =>
    ⟨hlength2, hupdate2.length_eq, hstart, fun e he hed => hf.starts_eq e he hed ▸ hconstants e he hed,
      fun e he hed => (hf.sizes_eq e he hed).symm⟩
  have hmiddle : m.middle = (m.middle.toNat : Nat) := (Int.toNat_of_nonneg hpos).symm
  have hsides : Placed start stack.shape m.diffidx (fun e => (starts.getD e 0).toNat)
      (coord stack.dus.updateShape) left vl ∧ Placed start stack.shape m.diffidx
        (fun e => (starts.getD e 0).toNat) (coord stack.dus.updateShape) right vr := by
    have hl := hf.left_eq
    have hr := hf.right_eq
    rcases hf.sides with ⟨rfl, rfl⟩ | ⟨rfl, rfl⟩
    · exact ⟨hdus hl, hdus2 hr⟩
    · exact ⟨hdus2 hl, hdus hr⟩
  refine ⟨hmiddle, fun e he hed => ?_, hsides.1, hsides.2, fun _ _ _ => rfl, fun e he => ?_,
    forall₂_ok_iff.mpr ⟨hf.length_preslice, fun e he => ?_⟩, by omega⟩
  · obtain ⟨hnonneg, hend⟩ := hfits e he hed
    omega
  · rw [hf.preslice_eq e he]
    by_cases hed : e = m.diffidx
    · rw [if_pos hed, if_pos hed, if_pos hed]
      refine ⟨?_, SliceDim.source_of_unit rfl hpos⟩
      rw [SliceDim.size_of_unit rfl]
      dsimp only
      omega
    · obtain ⟨hnonneg, hend⟩ := hfits e he hed
      rw [if_neg hed, if_neg hed, if_neg hed]
      refine ⟨?_, SliceDim.source_of_unit rfl hnonneg⟩
      rw [SliceDim.size_of_unit rfl]
      dsimp only
      omega
  · rw [hf.length_preslice] at he
    rw [hf.preslice_eq e he]
    by_cases hed : e = m.diffidx
    · rw [if_pos hed, hed]
      exact ⟨hpos, by dsimp only; omega, hle, Int.one_pos⟩
    · obtain ⟨hnonneg, hend⟩ := hfits e he hed
      rw [if_neg hed]
      exact ⟨hnonneg, by dsimp only; omega, hend, Int.one_pos⟩

theorem Located.drawn_preslice (h : Located start stack m left right vl vr s t m₀) (hx : x.shape = stack.shape)
    (hu : Tensor.slice m.preslice x = some u) : Drawn m.diffidx s t a (fun k => some (m₀ + k)) m.gap x u := by
  refine Drawn.slice hu (h.preslice_ok.length_eq.trans (congrArg _ hx.symm)) (fun _ _ => rfl) fun e he => ?_
  exact h.preslice_eq e (hx ▸ he)

theorem le_of_lowerExtend (hd : d < x.shape.length) (h : lowerExtend d l r x = some y) :
    l ≤ coord x.shape d ∧ r ≤ coord x.shape d := by
  have hborder : ∀ {n : Nat} {i j : Int} {sl : List (Tensor α)}, j - i = n →
      border ((n : Int) ≠ 0) d i j x = some sl → n ≤ coord x.shape d := by
    intro n i j sl hn hsl
    by_cases hzero : n = 0
    · omega
    · rw [border, if_pos (by simpa using hzero)] at hsl
      obtain ⟨w, hw, -⟩ := map_eq_some_iff.mp hsl
      obtain ⟨hok, -⟩ := ite_none_right_eq_some.mp hw
      obtain ⟨hi, hij, hj⟩ := (sliceAlong_ok_iff hd).mp hok
      omega
  obtain ⟨sl0, hsl0, h⟩ := bind_eq_some_iff.mp h
  obtain ⟨sl1, hsl1, -⟩ := bind_eq_some_iff.mp h
  exact ⟨hborder (by omega) hsl0, hborder (by omega) hsl1⟩

theorem drawn_lowerExtend (hd : d < x.shape.length) (hu : Drawn d s t a σ g x u) (hl : l ≤ g) (hr : r ≤ g) :
    ∃ y, lowerExtend d l r u = some y ∧ Drawn d s t a (fun k => σ (extendedFrom g l r k)) (l + (g + r)) x y := by
  have hd' : d < u.shape.length := hu.rank_eq.symm ▸ hd
  have hg : coord u.shape d = g := (hu.coord_eq d hd).trans (if_pos rfl)
  have halong := Along.self hd'
  rw [hg] at halong
  obtain ⟨y, hy, hyalong⟩ := along_lowerExtend hd' halong hl hr
  refine ⟨y, hy, hu.along hd (hyalong.congr fun idx _ k hk => ?_) fun k hk => ?_⟩
  · rw [appendLine, extendedFrom]
    split
    · rfl
    · rw [appendLine]
      split
      · rfl
      · rfl
  · rw [extendedFrom]
    split
    · omega
    · split
      · omega
      · omega

end

/-! ### The tensors that are sliced -/

section

variable {α : Type} {start : V → StartIndex} {shape : List Nat} {env : V → Int} {chain : List (Dus V)}
  {us : List (Tensor α)} {base x y : Tensor α} {dims : List SliceDim} {c : Nat → Nat} {k : Nat}

def HaveShapes (chain : List (Dus V)) (us : List (Tensor α)) : Prop :=
  List.Forall₂ (fun dus u => u.shape = dus.updateShape) chain us

def FitInto (shape : List Nat) (chain : List (Dus V)) : Prop :=
  ∀ dus ∈ chain, dus.startIndices.length = shape.length ∧ List.Forall₂ (· ≤ ·) dus.updateShape shape

theorem shape_updated (h : updated env chain us base = some x) : x.shape = base.shape := by
  induction chain generalizing us x with
  | nil =>
    cases us with
    | nil => rw [← some.inj h]
    | cons u us => cases h
  | cons dus chain ih =>
    cases us with
    | nil => cases h
    | cons u us =>
      obtain ⟨y, hy, hx⟩ := bind_eq_some_iff.mp h
      rw [(read_dynamicUpdateSlice hx).2.1, ih hy]

variable (env) in
theorem exists_updated (hfit : FitInto base.shape chain) (hus : HaveShapes chain us) :
    ∃ x, updated env chain us base = some x := by
  induction hus with
  | nil => exact ⟨base, rfl⟩
  | @cons dus u chain us hu _ ih =>
    obtain ⟨y, hy⟩ := ih fun dus hdus => hfit dus (mem_cons_of_mem _ hdus)
    obtain ⟨hlen, hle⟩ := hfit dus mem_cons_self
    refine ⟨_, bind_eq_some_iff.mpr ⟨y, hy, if_pos ⟨?_, ?_⟩⟩⟩
    · rw [length_map, hlen, shape_updated hy]
    · rwa [hu, shape_updated hy]

theorem read_updated (henv : Typed start env) (hdims : Forall₂ SliceDim.Ok dims base.shape)
    (hus : HaveShapes chain us) (hun : ∀ dus ∈ chain.take k, Unwritten start base.shape dims dus)
    (hx : updated env chain us base = some x) (hy : updated env (chain.drop k) (us.drop k) base = some y)
    (hc : ∀ e < dims.length, c e < (sliceDim dims e).size) :
    (y.read fun e => (sliceDim dims e).source (c e)) = x.read fun e => (sliceDim dims e).source (c e) := by
  induction k generalizing chain us x with
  | zero =>
    rw [drop_zero, drop_zero, hx] at hy
    rw [some.inj hy]
  | succ k ih =>
    cases hus with
    | nil =>
      rw [drop_nil, drop_nil, hx] at hy
      rw [some.inj hy]
    | @cons dus u chain us hu hus =>
      obtain ⟨x', hx', hupd⟩ := bind_eq_some_iff.mp hx
      rw [drop_succ_cons, drop_succ_cons] at hy
      have hshape := shape_updated hx'
      rw [ih hus (fun dus hdus => hun dus (mem_cons_of_mem _ hdus)) hx' hy]
      exact (read_of_unwritten (hshape.symm ▸ hun dus mem_cons_self) henv (hshape.symm ▸ hdims) hu hupd hc).symm

variable (env) in
theorem exists_unchanged (hfit : FitInto x.shape chain) : ∃ us : List (Tensor α), HaveShapes chain us ∧
    ∀ k y, updated env (chain.drop k) (us.drop k) x = some y → Same y x := by
  induction chain with
  | nil =>
    refine ⟨[], .nil, fun k y hy => ?_⟩
    rw [drop_nil, drop_nil] at hy
    rw [← some.inj hy]
    exact .refl _
  | cons dus chain ih =>
    obtain ⟨us, hus, hsame⟩ := ih fun dus hdus => hfit dus (mem_cons_of_mem _ hdus)
    obtain ⟨-, hle⟩ := hfit dus mem_cons_self
    let u : Tensor α := ⟨dus.updateShape, fun idx =>
      x.read fun e => updateStart x.shape dus.updateShape (dus.startIndices.map env) e + coord idx e⟩
    refine ⟨u :: us, .cons rfl hus, fun k y hy => ?_⟩
    cases k with
    | succ k => exact hsame k y hy
    | zero =>
      obtain ⟨x', hx', hupd⟩ := bind_eq_some_iff.mp hy
      have hsame' := hsame 0 x' hx'
      obtain ⟨-, hshape, hread⟩ := read_dynamicUpdateSlice hupd
      rw [hsame'.shape_eq] at hshape hread
      refine same_of_read hshape fun c hc => ?_
      rw [hshape] at hc
      by_cases hin : ∀ e < x.shape.length, updateStart x.shape u.shape (dus.startIndices.map env) e ≤ c e ∧
          c e < updateStart x.shape u.shape (dus.startIndices.map env) e + coord u.shape e
      · rw [(hread c hc).1 hin]
        refine read_congr x fun e he => ?_
        rw [coord_map_range _ (hle.length_eq.symm ▸ he)]
        have hat := (hin e he).1
        change updateStart x.shape dus.updateShape (dus.startIndices.map env) e ≤ c e at hat
        change updateStart x.shape dus.updateShape (dus.startIndices.map env) e +
          (c e - updateStart x.shape dus.updateShape (dus.startIndices.map env) e) = c e
        omega
      · rw [(hread c hc).2 hin]
        exact hsame'.read_eq (hsame'.shape_eq.symm ▸ hc)

variable (env) in
theorem exists_written (hfit : FitInto shape chain) (p q : α) (k : Nat) : ∃ us : List (Tensor α), HaveShapes chain us ∧
    (∀ y, updated env (chain.drop k) (us.drop k) (splat shape p) = some y → ∀ c, Within shape c → y.read c = p) ∧
    ∀ x, updated env chain us (splat shape p) = some x → ∀ c, Within shape c → (∃ dus ∈ chain.take k,
      ∀ e < shape.length,
        Writes (coord shape e) (coord dus.updateShape e) ((dus.startIndices.map env).getD e 0) (c e)) →
        x.read c = q := by
  induction chain generalizing k with
  | nil =>
    refine ⟨[], .nil, fun y hy c _ => ?_, fun x _ c _ hwrites => ?_⟩
    · rw [drop_nil, drop_nil] at hy
      rw [← some.inj hy]
      rfl
    · obtain ⟨dus, hdus, -⟩ := hwrites
      rw [take_nil] at hdus
      cases hdus
  | cons dus chain ih =>
    have hfit' : FitInto shape chain := fun dus hdus => hfit dus (mem_cons_of_mem _ hdus)
    cases k with
    | zero =>
      obtain ⟨us, hus, hbase, -⟩ := ih hfit' 0
      refine ⟨splat dus.updateShape p :: us, .cons rfl hus, fun y hy c hc => ?_, fun x _ c _ hwrites => ?_⟩
      · obtain ⟨x', hx', hupd⟩ := bind_eq_some_iff.mp hy
        obtain ⟨-, -, hread⟩ := read_dynamicUpdateSlice hupd
        rw [shape_updated hx'] at hread
        by_cases hin : ∀ e < shape.length, updateStart shape dus.updateShape (dus.startIndices.map env) e ≤ c e ∧
              c e < updateStart shape dus.updateShape (dus.startIndices.map env) e + coord dus.updateShape e
        · exact (hread c hc).1 hin
        · exact ((hread c hc).2 hin).trans (hbase x' hx' c hc)
      · obtain ⟨dus, hdus, -⟩ := hwrites
        cases hdus
    | succ k =>
      obtain ⟨us, hus, hbase, hwritten⟩ := ih hfit' k
      refine ⟨splat dus.updateShape q :: us, .cons rfl hus, hbase, fun x hx c hc hwrites => ?_⟩
      obtain ⟨x', hx', hupd⟩ := bind_eq_some_iff.mp hx
      obtain ⟨-, -, hread⟩ := read_dynamicUpdateSlice hupd
      rw [shape_updated hx'] at hread
      by_cases hin : ∀ e < shape.length, updateStart shape dus.updateShape (dus.startIndices.map env) e ≤ c e ∧
            c e < updateStart shape dus.updateShape (dus.startIndices.map env) e + coord dus.updateShape e
      · exact (hread c hc).1 hin
      · refine ((hread c hc).2 hin).trans (hwritten x' hx' c hc ?_)
        obtain ⟨dus', hmem, hall⟩ := hwrites
        rcases mem_cons.mp hmem with rfl | hmem
        · exact absurd hall hin
        · exact ⟨dus', hmem, hall⟩

end

/-! ### Two updates and one -/

/-- The updates in the order in which they are made, and their extents along the dimension. -/
structure Ordered (start : V → StartIndex) (stack : Stack V) (m : Merged V) (s t : Nat → Nat) (v₁ v₂ : V)
    (n₁ n₂ : Nat) : Prop where
  newer : Placed start stack.shape m.diffidx s t stack.dus v₁
  older : Placed start stack.shape m.diffidx s t stack.dus2 v₂
  newer_size : coord stack.dus.updateShape m.diffidx = n₁
  older_size : coord stack.dus2.updateShape m.diffidx = n₂

/-- Where the elements of the two updates come from. -/
def stackSource (dim : Nat) (i₁ i₂ : Int) (n₁ n₂ : Nat) (σ₁ σ₂ : Nat → Option Nat) : Nat → Option Nat :=
  spliced (clampStart dim n₁ i₁) n₁ σ₁ (spliced (clampStart dim n₂ i₂) n₂ σ₂ some)

/-- Where those of the one update come from. -/
def mergedSource (dim size : Nat) (i : Int) (σ : Nat → Option Nat) : Nat → Option Nat :=
  spliced (clampStart dim size i) size σ some

section

variable {α : Type} {start : V → StartIndex} {stack : Stack V} {m : Merged V} {left right : Dus V}
  {vl vr v₁ v₂ : V} {env : V → Int} {s t : Nat → Nat} {m₀ n₁ n₂ : Nat} {σ σ₁ σ₂ : Nat → Option Nat} {a : α}
  {x o y z z' u u₁ u₂ : Tensor α} {zs zs' : List (Tensor α)} {make : Tensor α → Option (Tensor α)}

theorem sourced_of_same {d : Nat} (h : Same o x) : Sourced d s t a some x o :=
  ⟨h.shape_eq, fun c hc _ => by
    rw [h.read_eq (h.shape_eq.symm ▸ hc), fromLine, update_eq_self],
    fun c hc _ => h.read_eq (h.shape_eq.symm ▸ hc)⟩

theorem Ordered.sourced (hord : Ordered start stack m s t v₁ v₂ n₁ n₂) (hlt : m.diffidx < stack.shape.length)
    (hfits : ∀ e < stack.shape.length, e ≠ m.diffidx → s e + t e ≤ coord stack.shape e) (henv : Typed start env)
    (hx : x.shape = stack.shape) (ho : Same o x) (hu₁ : Drawn m.diffidx s t a σ₁ n₁ x u₁)
    (hu₂ : Drawn m.diffidx s t a σ₂ n₂ x u₂) (hy : dynamicUpdateSlice (stack.dus2.startIndices.map env) u₂ o = some y)
    (hz : dynamicUpdateSlice (stack.dus.startIndices.map env) u₁ y = some z) :
    Sourced m.diffidx s t a (spliced (clampStart (coord stack.shape m.diffidx) n₂ (env v₂)) n₂ σ₂ some) x y ∧
      Sourced m.diffidx s t a
        (stackSource (coord stack.shape m.diffidx) (env v₁) (env v₂) n₁ n₂ σ₁ σ₂) x z := by
  have hnewer := hord.newer
  have holder := hord.older
  rw [← hx] at hlt hfits hnewer holder ⊢
  have hy' := holder.sourced hlt hfits henv hu₂ (sourced_of_same ho) hy
  exact ⟨hy', hnewer.sourced hlt hfits henv hu₁ hy' hz⟩

theorem Merged.eval_eq_some (h : m.eval env stack make o = some (z, zs)) : ∃ p u,
    Tensor.slice m.preslice o = some p ∧ make p = some u ∧ dynamicUpdateSlice (m.startIndices.map env) u o = some z ∧
        allSome (stack.middleSlices.map fun dims => Tensor.slice dims z) = some zs := by
  obtain ⟨p, hp, h⟩ := bind_eq_some_iff.mp h
  obtain ⟨u, hu, h⟩ := bind_eq_some_iff.mp h
  obtain ⟨z', hz, h⟩ := bind_eq_some_iff.mp h
  obtain ⟨zs', hzs, h⟩ := bind_eq_some_iff.mp h
  cases some.inj h
  exact ⟨p, u, hp, hu, hz, hzs⟩

theorem Located.sourced (hloc : Located start stack m left right vl vr s t m₀) (hlt : m.diffidx < stack.shape.length)
    (hstart : m.startIndices = left.startIndices) (henv : Typed start env) (hx : x.shape = stack.shape)
    (ho : Same o x) (hu : Drawn m.diffidx s t a σ m.size x u)
    (hz : dynamicUpdateSlice (m.startIndices.map env) u o = some z) :
    Sourced m.diffidx s t a (mergedSource (coord stack.shape m.diffidx) m.size (env vl) σ) x z := by
  have hleft := hloc.left
  have hfits := hloc.fits
  rw [← hx] at hlt hfits hleft ⊢
  rw [hstart] at hz
  exact hleft.sourced hlt hfits henv hu (sourced_of_same ho) hz

theorem sameResults_of_sources (hv : stack.Verified start) (hloc : Located start stack m left right vl vr s t m₀)
    (hlt : m.diffidx < stack.shape.length) (hstart : m.startIndices = left.startIndices)
    (hord : Ordered start stack m s t v₁ v₂ n₁ n₂) (henv : Typed start env) (hx : x.shape = stack.shape)
    (hshape : u₁.shape = stack.dus.updateShape) (hu₁ : Drawn m.diffidx s t a σ₁ n₁ x u₁)
    (hu₂ : Drawn m.diffidx s t a σ₂ n₂ x u₂) (hmake : ∀ p, Drawn m.diffidx s t a (fun k => some (m₀ + k)) m.gap x p →
      ∃ u, make p = some u ∧ Drawn m.diffidx s t a σ m.size x u) (hsize : m.size ≤ coord stack.shape m.diffidx)
    (hmiddle : ∀ dims ∈ stack.middleSlices, Unwritten start stack.shape dims stack.dus)
    (hsources : NoElements stack m.diffidx ∨ ∀ q < coord stack.shape m.diffidx,
      stackSource (coord stack.shape m.diffidx) (env v₁) (env v₂) n₁ n₂ σ₁ σ₂ q =
        mergedSource (coord stack.shape m.diffidx) m.size (env vl) σ q) (h : stack.eval env x u₁ u₂ = some (z, zs)) :
    SameResults (m.eval env stack make x) z zs := by
  obtain ⟨y, hy, hz, hzs⟩ := Stack.eval_eq_some h
  obtain ⟨hySourced, hzSourced⟩ := hord.sourced hlt hloc.fits henv hx (.refl x) hu₁ hu₂ hy hz
  have hyshape : y.shape = stack.shape := hySourced.shape_eq.trans hx
  obtain ⟨hpre, hok⟩ := forall₂_ok_iff.mp hloc.preslice_ok
  obtain ⟨p, hp⟩ : ∃ p, Tensor.slice m.preslice x = some p :=
    exists_slice (hpre.trans (congrArg _ hx.symm)) (hx.symm ▸ hok)
  obtain ⟨u, hu, huDrawn⟩ := hmake p (hloc.drawn_preslice hx hp)
  obtain ⟨z', hz'⟩ : ∃ z', dynamicUpdateSlice (m.startIndices.map env) u x = some z' := by
    have hleft := hloc.left
    have hfits := hloc.fits
    rw [← hx] at hfits hleft hsize
    rw [hstart]
    exact hleft.exists_update hfits huDrawn hsize rfl
  have hz'Sourced := hloc.sourced hlt hstart henv hx (.refl x) huDrawn hz'
  have hsame : Same z' z := by
    refine hz'Sourced.same (hx.symm ▸ hlt) hzSourced ?_
    rw [hx]
    rcases hsources with ⟨e, he, hed, hzero⟩ | heq
    · exact .inl ⟨e, he, hed, hloc.size_eq e he hed ▸ hzero⟩
    · exact .inr fun q hq => (heq q hq).symm
  obtain ⟨zs', hzs', hsames⟩ := slices_same (hyshape.symm ▸ hv.middle_ok) hzs
    (hsame.shape_eq.trans (hzSourced.shape_eq.trans hySourced.shape_eq.symm)) fun dims hdims c hc => by
      have hun := hmiddle dims hdims
      have hdimsOk := hv.middle_ok dims hdims
      obtain ⟨hlen, hok⟩ := forall₂_ok_iff.mp hdimsOk
      rw [← hyshape] at hun hdimsOk
      rw [← read_of_unwritten hun henv hdimsOk hshape hz hc]
      refine hsame.read_eq fun e he => ?_
      rw [hz'Sourced.shape_eq, hx] at he ⊢
      have he' : e < dims.length := hlen.symm ▸ he
      exact SliceDim.source_lt (hok e he') (hc e he')
  refine ⟨z', zs', ?_, hsame, hsames⟩
  rw [Merged.eval]
  change (Tensor.slice m.preslice x).bind _ = _
  rw [hp, bind_some, hu]
  change (dynamicUpdateSlice (m.startIndices.map env) u x).bind _ = _
  rw [hz', bind_some, hzs']
  rfl

end

/-! ### The places of an extension -/

section

variable {n m₀ g a b q : Nat} {i : Int}

def extendSource (m₀ g a b : Nat) (k : Nat) : Option Nat := some (m₀ + extendedFrom g a b k)

theorem spliced_of_lt {l k : Nat} {σ φ : Nat → Option Nat} (hk : k < n) : spliced l n σ φ (l + k) = σ k := by
  rw [spliced, if_pos ⟨Nat.le_add_right l k, Nat.add_lt_add_left hk l⟩, Nat.add_sub_cancel_left]

theorem extendedFrom_ends (hg : 0 < g) (hb : b ≤ g) : extendedFrom g a b 0 = 0 ∧ extendedFrom g a b a = 0 ∧
    extendedFrom g a b (a + (g + b) - 1) = g - 1 := by
  refine ⟨?_, ?_, ?_⟩
  · rw [extendedFrom]
    split_ifs <;> omega
  · rw [extendedFrom]
    split_ifs <;> omega
  · rw [extendedFrom]
    split_ifs <;> omega

theorem inPlace_of_sources (hg : 0 < g) (ha : a ≤ g) (hb : b ≤ g) (hsize : a + (g + b) ≤ n)
    (hi : 0 ≤ (m₀ : Int) - a → i = m₀ - a)
    (h : ∀ q < n, ∀ p, mergedSource n (a + (g + b)) i (extendSource m₀ g a b) q = some p →
      ComesBy (clampStart n a i) a (clampStart n b (m₀ + g)) b m₀ g q p) :
    (a ≤ m₀ ∧ m₀ + g + b ≤ n) ∨ (a = g ∧ (b = 0 ∨ b = g) ∧ clampStart n (a + (g + b)) i = m₀ ∧
      clampStart n a i = m₀ + g + b) := by
  obtain ⟨hzero, hmid, hend⟩ := extendedFrom_ends (a := a) hg hb
  have hle := clampStart_le hsize i
  have hat : ∀ k < a + (g + b), ComesBy (clampStart n a i) a (clampStart n b (m₀ + g)) b m₀ g
      (clampStart n (a + (g + b)) i + k) (m₀ + extendedFrom g a b k) := by
    intro k hk
    refine h _ (by omega) _ ?_
    rw [mergedSource, spliced_of_lt hk]
    rfl
  have hfirst := hat 0 (by omega)
  have hmiddle := hat a (by omega)
  have hlast := hat (a + (g + b) - 1) (by omega)
  rw [hzero, add_zero, add_zero] at hfirst
  rw [hmid, add_zero] at hmiddle
  rw [hend, ← Nat.add_sub_assoc (by omega), ← Nat.add_sub_assoc (by omega)] at hlast
  by_cases hpos : a ≤ m₀
  · refine .inl ⟨hpos, ?_⟩
    obtain rfl := hi (by omega)
    refine inBounds_of_comesBy ?_ ?_ hle ?_ hfirst hmiddle
    · rw [clampStart]
      omega
    · rw [clampStart]
      omega
    · rw [clampStart]
      omega
  · refine .inr (repeats_of_comesBy hg ha hb (by omega) ?_ ?_ ?_ hfirst hmiddle hlast)
    · rw [clampStart]
      omega
    · rw [clampStart, clampStart]
      omega
    · rw [clampStart, clampStart]
      omega

theorem agree_of_inPlace (ha : a ≤ g) (hb : b ≤ g) (hsize : a + (g + b) ≤ n)
    (h : (i = m₀ - a ∧ a ≤ m₀ ∧ m₀ + g + b ≤ n) ∨ (a = g ∧ (b = 0 ∨ b = g) ∧
      clampStart n (a + (g + b)) i = m₀ ∧ clampStart n a i = m₀ + g + b)) :
    Agree (mergedSource n (a + (g + b)) i (extendSource m₀ g a b)) (clampStart n a i) a m₀
      (clampStart n b (m₀ + g)) b (m₀ + g - b) := by
  have hle := clampStart_le hsize i
  have hr : clampStart n b ((m₀ : Int) + g) = m₀ + g := by
    rcases h with h | h
    · rw [clampStart]
      omega
    · rw [clampStart]
      omega
  have hplaces : (clampStart n a i = clampStart n (a + (g + b)) i ∧ clampStart n (a + (g + b)) i + a = m₀) ∨
      (a = g ∧ (b = 0 ∨ b = g) ∧ clampStart n (a + (g + b)) i = m₀ ∧ clampStart n a i = m₀ + g + b) := by
    rcases h with ⟨rfl, h⟩ | h
    · left
      rw [clampStart, clampStart]
      omega
    · exact .inr h
  rw [hr]
  generalize clampStart n a i = l at hplaces ⊢
  rw [mergedSource]
  generalize clampStart n (a + (g + b)) i = e at hplaces hle ⊢
  have hsrc : ∀ q, spliced e (a + (g + b)) (extendSource m₀ g a b) some q =
      some (if e ≤ q ∧ q < e + (a + (g + b)) then m₀ + extendedFrom g a b (q - e) else q) := by
    intro q
    rw [spliced]
    split
    · rfl
    · rfl
  refine ⟨fun k hk => ?_, fun k hk => ?_, fun k hk k' hk' => ?_, fun q hl hr => ?_⟩
  · rw [hsrc, extendedFrom]
    refine congrArg some ?_
    split_ifs <;> omega
  · rw [hsrc, extendedFrom]
    refine congrArg some ?_
    split_ifs <;> omega
  · omega
  · rw [hsrc, extendedFrom]
    refine congrArg some ?_
    split_ifs <;> omega

end

/-! ### Borders that are extended -/

/-- The slice takes `n` elements from `a` on along the dimension, and the region of the updates in the others. -/
structure Takes (stack : Stack V) (m : Merged V) (s t : Nat → Nat) (b : Border) (a n : Nat) : Prop where
  ok : List.Forall₂ SliceDim.Ok b.dims stack.shape
  dims_eq : ∀ e < stack.shape.length, (sliceDim b.dims e).size = (if e = m.diffidx then n else t e) ∧
    ∀ k, (sliceDim b.dims e).source k = (if e = m.diffidx then a else s e) + k

/-- What is known when the borders are extended: the updates in their order, and what their slices take. -/
structure Extends (start : V → StartIndex) (stack : Stack V) (m : Merged V) (slice slice2 : Border)
    (left right : Dus V) (vl vr v₁ v₂ : V) (s t : Nat → Nat) (m₀ n₁ n₂ a₁ a₂ : Nat) : Prop where
  located : Located start stack m left right vl vr s t m₀
  ordered : Ordered start stack m s t v₁ v₂ n₁ n₂
  takes : Takes stack m s t slice a₁ n₁
  takes2 : Takes stack m s t slice2 a₂ n₂
  /-- The newer update is the left or the right one. -/
  sides : (left = stack.dus ∧ v₁ = vl ∧ v₂ = vr ∧ n₁ = m.lhs ∧ n₂ = m.rhs ∧ a₁ = m₀ ∧ a₂ = m₀ + m.gap - m.rhs) ∨
    (right = stack.dus ∧ v₁ = vr ∧ v₂ = vl ∧ n₁ = m.rhs ∧ n₂ = m.lhs ∧ a₁ = m₀ + m.gap - m.rhs ∧ a₂ = m₀)

section

variable {start : V → StartIndex} {stack : Stack V} {m : Merged V} {starts : List Int} {slice slice2 b : Border}
  {d : Nat} {dus : Dus V}

section

variable (hb : b.Verified stack.shape dus) (hlen : starts.length = stack.shape.length)

include hb hlen

theorem takes_of_sameRegion (hregion : sameRegion starts m.diffidx stack.dus.updateShape b.dims) {a : Nat}
    (hstart : (sliceDim b.dims m.diffidx).start = a) :
    Takes stack m (fun e => (starts.getD e 0).toNat) (coord stack.dus.updateShape) b a
      (coord dus.updateShape m.diffidx) := by
  obtain ⟨hrank, hok⟩ := forall₂_ok_iff.mp hb.ok
  refine ⟨hb.ok, fun e he => ?_⟩
  obtain ⟨hstride, hother⟩ := hregion e (hlen.symm ▸ he)
  have hpos := (hok e (hrank.symm ▸ he)).1
  by_cases hed : e = m.diffidx
  · rw [if_pos hed, if_pos hed, hed]
    rw [hed] at hstride hpos
    refine ⟨?_, fun k => ?_⟩
    · rw [hb.size_eq, coord_map _ _ (hrank.symm ▸ hed ▸ he), sliceDim_eq_getElem]
    · rw [SliceDim.source_of_unit hstride hpos, hstart, Int.toNat_natCast]
  · obtain ⟨hstart', hsize⟩ := hother hed
    rw [if_neg hed, if_neg hed]
    exact ⟨hsize, fun k => by rw [SliceDim.source_of_unit hstride hpos, hstart']⟩

theorem limit_eq_of_verified (hregion : sameRegion starts d stack.dus.updateShape b.dims) {e : Nat}
    (he : e < stack.shape.length) :
    (sliceDim b.dims e).limit = (sliceDim b.dims e).start + coord dus.updateShape e ∧
      0 ≤ (sliceDim b.dims e).start ∧ (sliceDim b.dims e).limit ≤ coord stack.shape e := by
  obtain ⟨hrank, hok⟩ := forall₂_ok_iff.mp hb.ok
  have he' : e < b.dims.length := hrank.symm ▸ he
  obtain ⟨hpos, hle, hlimit, -⟩ := hok e he'
  refine ⟨?_, hpos, hlimit⟩
  rw [hb.size_eq, coord_map _ _ he', ← sliceDim_eq_getElem he', SliceDim.size_of_unit (hregion e (hlen.symm ▸ he)).1]
  omega

end

theorem extends_of_fires [DecidableEq V] (hv : stack.Verified start) (hs : slice.Verified stack.shape stack.dus)
    (hs2 : slice2.Verified stack.shape stack.dus2) (h : DUSDUSToDUSExtend start stack slice slice2 = some m) :
    ∃ starts left right vl vr v₁ v₂ s t m₀ n₁ n₂ a₁ a₂, Fired start stack m starts left right vl vr ∧
      Extends start stack m slice slice2 left right vl vr v₁ v₂ s t m₀ n₁ n₂ a₁ a₂ := by
  obtain ⟨_, -, h⟩ := bind_eq_some_iff.mp h
  obtain ⟨_, -, h⟩ := bind_eq_some_iff.mp h
  obtain ⟨⟨starts, d, idx0, idx1⟩, hmatch, h⟩ := bind_eq_some_iff.mp h
  obtain ⟨_, hregion, h⟩ := bind_eq_some_iff.mp h
  obtain ⟨_, hregion2, h⟩ := bind_eq_some_iff.mp h
  rw [guard_eq_some'] at hregion hregion2
  have hlen : starts.length = stack.shape.length := by
    obtain ⟨-, hstarts, -⟩ := matchStack_eq_some hmatch
    rw [← (hv.updates stack.dus mem_cons_self).1]
    exact (forall₂_iff_get.mp (allSome_map_iff.mp hstarts)).1.symm
  -- the slices are within the operand, and so is the region of the updates
  have hfits : ∀ e < stack.shape.length, e ≠ d → 0 ≤ starts.getD e 0 ∧
      starts.getD e 0 + coord stack.dus.updateShape e ≤ coord stack.shape e := by
    intro e he hed
    obtain ⟨hstart, -⟩ := (hregion e (hlen.symm ▸ he)).2 hed
    obtain ⟨hlimit, hpos, hle⟩ := limit_eq_of_verified hs hlen hregion he
    rw [← hstart]
    omega
  dsimp only at h
  split_ifs at h with hleft hright
  · cases h
    obtain ⟨vl, vr, hf, hd, hmiddle, hgap⟩ := fired_of_merge hv hmatch (.inl ⟨rfl, rfl, rfl, rfl⟩) hleft.1 rfl
    generalize merge starts stack.dus.updateShape d stack.dus stack.dus2 idx0 idx1 = m at hf hd hmiddle hgap
    subst hd
    obtain ⟨hlimit, hpos, -⟩ := limit_eq_of_verified hs hlen hregion hf.lt
    obtain ⟨hlimit2, hpos2, hle2⟩ := limit_eq_of_verified hs2 hlen hregion2 hf.lt
    have hlhs := hf.lhs_eq
    have hrhs := hf.rhs_eq
    have hnonneg : 0 ≤ m.middle := by omega
    have hloc := hf.located hv hfits hnonneg (by omega)
    exact ⟨starts, _, _, vl, vr, vl, vr, _, _, _, m.lhs, m.rhs, m.middle.toNat, m.middle.toNat + m.gap - m.rhs, hf,
      hloc, ⟨hloc.left, hloc.right, hlhs, hrhs⟩,
      hlhs ▸ takes_of_sameRegion hs hlen hregion (by omega),
      hrhs ▸ takes_of_sameRegion hs2 hlen hregion2 (by omega), .inl ⟨rfl, rfl, rfl, rfl, rfl, rfl, rfl⟩⟩
  · cases h
    obtain ⟨vl, vr, hf, hd, hmiddle, hgap⟩ := fired_of_merge hv hmatch (.inr ⟨rfl, rfl, rfl, rfl⟩) hright.1 rfl
    generalize merge starts stack.dus.updateShape d stack.dus2 stack.dus idx1 idx0 = m at hf hd hmiddle hgap
    subst hd
    obtain ⟨hlimit, hpos, hle⟩ := limit_eq_of_verified hs hlen hregion hf.lt
    obtain ⟨hlimit2, hpos2, -⟩ := limit_eq_of_verified hs2 hlen hregion2 hf.lt
    have hlhs := hf.lhs_eq
    have hrhs := hf.rhs_eq
    have hnonneg : 0 ≤ m.middle := by omega
    have hloc := hf.located hv hfits hnonneg (by omega)
    exact ⟨starts, _, _, vl, vr, vr, vl, _, _, _, m.rhs, m.lhs, m.middle.toNat + m.gap - m.rhs, m.middle.toNat, hf,
      hloc, ⟨hloc.right, hloc.left, hrhs, hlhs⟩,
      hrhs ▸ takes_of_sameRegion hs hlen hregion (by omega),
      hlhs ▸ takes_of_sameRegion hs2 hlen hregion2 (by omega), .inr ⟨rfl, rfl, rfl, rfl, rfl, rfl, rfl⟩⟩

end

/-! ### When the extension is right -/

section

variable {α : Type} {start : V → StartIndex} {stack : Stack V} {m : Merged V} {starts : List Int}
  {slice slice2 b : Border} {left right : Dus V} {vl vr v v₁ v₂ : V} {env : V → Int} {s t : Nat → Nat}
  {m₀ n n₁ n₂ a₁ a₂ p q : Nat} {i : Int} {us : List (Tensor α)} {base o x y z u u₁ u₂ : Tensor α}
  {zs : List (Tensor α)} {a : α}

theorem env_eq_constantValue (henv : Typed start env) (h : (start v).getSExtValue = some i) :
    env v = constantValue (start v) := by
  have hhas := henv v
  cases hstart : start v with
  | runtime =>
    rw [hstart] at h
    cases h
  | constant type n =>
    rw [hstart] at hhas
    exact hhas.1

theorem Takes.drawn (h : Takes stack m s t b n₁ n₂) (hx : x.shape = stack.shape) (hu : Tensor.slice b.dims y = some u)
    (hread : ∀ c : Nat → Nat, (∀ e < b.dims.length, c e < (sliceDim b.dims e).size) →
      (y.read fun e => (sliceDim b.dims e).source (c e)) = x.read fun e => (sliceDim b.dims e).source (c e)) :
    Drawn m.diffidx s t a (fun k => some (n₁ + k)) n₂ x u :=
  Drawn.slice hu (h.ok.length_eq.trans (congrArg _ hx.symm)) hread fun e he => h.dims_eq e (hx ▸ he)

theorem exists_stack_eval (hv : stack.Verified start) (ho : o.shape = stack.shape)
    (hu₁ : u₁.shape = stack.dus.updateShape) (hu₂ : u₂.shape = stack.dus2.updateShape) :
    ∃ z zs, stack.eval env o u₁ u₂ = some (z, zs) := by
  obtain ⟨hlen, hle⟩ := hv.updates stack.dus mem_cons_self
  obtain ⟨hlength2, hle2⟩ := hv.updates stack.dus2 (mem_cons_of_mem _ mem_cons_self)
  obtain ⟨w, hw⟩ : ∃ w, dynamicUpdateSlice (stack.dus2.startIndices.map env) u₂ o = some w :=
    ⟨_, if_pos ⟨by rw [length_map, hlength2, ho], by rw [hu₂, ho]; exact hle2⟩⟩
  have hwshape := (read_dynamicUpdateSlice hw).2.1.trans ho
  obtain ⟨z, hz⟩ : ∃ z, dynamicUpdateSlice (stack.dus.startIndices.map env) u₁ w = some z :=
    ⟨_, if_pos ⟨by rw [length_map, hlen, hwshape], by rw [hu₁, hwshape]; exact hle⟩⟩
  obtain ⟨zs, hzs⟩ : ∃ zs, allSome (stack.middleSlices.map fun dims => Tensor.slice dims w) = some zs := by
    refine exists_allSome_iff.mpr fun r hr => ?_
    obtain ⟨dims, hdims, rfl⟩ := mem_map.mp hr
    exact ⟨_, if_pos (hwshape.symm ▸ hv.middle_ok dims hdims)⟩
  refine ⟨z, zs, ?_⟩
  rw [Stack.eval, hw]
  change (dynamicUpdateSlice (stack.dus.startIndices.map env) u₁ w).bind _ = _
  rw [hz, bind_some, hzs]
  rfl

theorem exists_results (hv : stack.Verified start) (hs : slice.Verified stack.shape stack.dus)
    (hs2 : slice2.Verified stack.shape stack.dus2) (hbase : base.shape = stack.shape)
    (hus : HaveShapes stack.chain us) : ∃ o y₁ y₂ u₁ u₂ z zs, updated env stack.chain us base = some o ∧
      updated env (stack.chain.drop slice.depth) (us.drop slice.depth) base = some y₁ ∧
      updated env (stack.chain.drop slice2.depth) (us.drop slice2.depth) base = some y₂ ∧
      Tensor.slice slice.dims y₁ = some u₁ ∧ Tensor.slice slice2.dims y₂ = some u₂ ∧
      stack.eval env o u₁ u₂ = some (z, zs) := by
  have hfit : FitInto base.shape stack.chain := fun dus hdus =>
    hbase.symm ▸ hv.updates dus (mem_cons_of_mem _ (mem_cons_of_mem _ hdus))
  have hdrop : ∀ k, ∃ y, updated env (stack.chain.drop k) (us.drop k) base = some y := fun k =>
    exists_updated env (fun dus hdus => hfit dus (mem_of_mem_drop hdus)) (forall₂_drop k hus)
  have hslice : ∀ {b : Border} {dus : Dus V} {y : Tensor α}, b.Verified stack.shape dus → y.shape = base.shape →
      ∃ u, Tensor.slice b.dims y = some u ∧ u.shape = dus.updateShape := by
    intro b dus y hb hy
    obtain ⟨hlen, hok⟩ := forall₂_ok_iff.mp hb.ok
    obtain ⟨u, hu⟩ : ∃ u, Tensor.slice b.dims y = some u :=
      exists_slice (by rw [hy, hbase, hlen]) (by rw [hy, hbase]; exact hok)
    exact ⟨u, hu, (read_slice hu).2.1.trans hb.size_eq.symm⟩
  obtain ⟨o, ho⟩ := exists_updated env hfit hus
  obtain ⟨y₁, hy₁⟩ := hdrop slice.depth
  obtain ⟨y₂, hy₂⟩ := hdrop slice2.depth
  obtain ⟨u₁, hu₁, hu₁shape⟩ := hslice hs (shape_updated hy₁)
  obtain ⟨u₂, hu₂, hu₂shape⟩ := hslice hs2 (shape_updated hy₂)
  obtain ⟨z, zs, hz⟩ := exists_stack_eval hv ((shape_updated ho).trans hbase) hu₁shape hu₂shape
  exact ⟨o, y₁, y₂, u₁, u₂, z, zs, ho, hy₁, hy₂, hu₁, hu₂, hz⟩

namespace Extends

variable (hf : Fired start stack m starts left right vl vr)
  (h : Extends start stack m slice slice2 left right vl vr v₁ v₂ s t m₀ n₁ n₂ a₁ a₂) (henv : Typed start env)

include hf h henv

theorem env_eq : env vr = m₀ + m.gap ∧ (0 ≤ (m₀ : Int) - m.lhs → env vl = m₀ - m.lhs) := by
  have hleft := hf.left_read
  have hright := hf.right_read
  rw [h.located.middle_eq] at hleft hright
  exact ⟨eq_of_getSExtValue (henv vr) hright (by omega), fun hpos => eq_of_getSExtValue (henv vl) hleft hpos⟩

theorem inPlace_iff : (m.InBounds (coord stack.shape m.diffidx) ∨ m.Repeats (coord stack.shape m.diffidx) start) ↔
    (m.lhs ≤ m₀ ∧ m₀ + m.gap + m.rhs ≤ coord stack.shape m.diffidx) ∨ (m.lhs = m.gap ∧ (m.rhs = 0 ∨ m.rhs = m.gap) ∧
        clampStart (coord stack.shape m.diffidx) (m.lhs + (m.gap + m.rhs)) (env vl) = m₀ ∧
          clampStart (coord stack.shape m.diffidx) m.lhs (env vl) = m₀ + m.gap + m.rhs) := by
  have hvl : (m.startIndices[m.diffidx]?).elim 0 (fun v => constantValue (start v)) = env vl := by
    rw [hf.startIndices_eq, hf.left_eq]
    exact (env_eq_constantValue henv hf.left_read).symm
  rw [Merged.InBounds, Merged.Repeats, h.located.middle_eq, hvl, Merged.size]
  omega

section

variable (hlhs : m.lhs ≤ m.gap) (hrhs : m.rhs ≤ m.gap) (hsize : m.size ≤ coord stack.shape m.diffidx)

include hlhs hrhs hsize

theorem agree (hplace : m.InBounds (coord stack.shape m.diffidx) ∨ m.Repeats (coord stack.shape m.diffidx) start) :
    Agree (mergedSource (coord stack.shape m.diffidx) m.size (env vl) (extendSource m₀ m.gap m.lhs m.rhs))
      (clampStart (coord stack.shape m.diffidx) n₁ (env v₁)) n₁ a₁
        (clampStart (coord stack.shape m.diffidx) n₂ (env v₂)) n₂ a₂ := by
  obtain ⟨hright, hleft⟩ := env_eq hf h henv
  have hagree := @agree_of_inPlace (coord stack.shape m.diffidx) m₀ m.gap m.lhs m.rhs (env vl) hlhs hrhs hsize (by
    rcases (inPlace_iff hf h henv).mp hplace with ⟨hle, hend⟩ | hrepeats
    · exact .inl ⟨hleft (by omega), hle, hend⟩
    · exact .inr hrepeats)
  rw [← hright] at hagree
  rcases h.sides with ⟨-, rfl, rfl, rfl, rfl, rfl, rfl⟩ | ⟨-, rfl, rfl, rfl, rfl, rfl, rfl⟩
  · exact hagree
  · exact hagree.symm

theorem inPlace_of_sources (heq : ∀ q < coord stack.shape m.diffidx, stackSource (coord stack.shape m.diffidx)
    (env v₁) (env v₂) n₁ n₂
      (fun k => some (a₁ + k)) (fun k => some (a₂ + k)) q =
        mergedSource (coord stack.shape m.diffidx) m.size (env vl) (extendSource m₀ m.gap m.lhs m.rhs) q) :
    m.InBounds (coord stack.shape m.diffidx) ∨ m.Repeats (coord stack.shape m.diffidx) start := by
  obtain ⟨hright, hleft⟩ := env_eq hf h henv
  refine (inPlace_iff hf h henv).mpr (BorderUpdates.inPlace_of_sources hf.gap_pos hlhs hrhs hsize hleft
    fun q hq p hp => ?_)
  have hsrc := (heq q hq).trans hp
  rw [← hright]
  rcases h.sides with ⟨-, rfl, rfl, rfl, rfl, rfl, rfl⟩ | ⟨-, rfl, rfl, rfl, rfl, rfl, rfl⟩
  · exact comesBy_of_left_newer hsrc
  · exact comesBy_of_right_newer hsrc

end

section

variable (hv : stack.Verified start) (hs : slice.Verified stack.shape stack.dus)

include hv hs

theorem sameResults (hholds : ExtendHoldsWhen start stack slice slice2 m) (hbase : base.shape = stack.shape)
    (hus : HaveShapes stack.chain us) (ho : updated env stack.chain us base = some o)
    (hu₁ : slice.eval env stack us base = some u₁) (hu₂ : slice2.eval env stack us base = some u₂)
    (hz : stack.eval env o u₁ u₂ = some (z, zs)) :
    SameResults (m.eval env stack (lowerExtend m.diffidx m.lhs m.rhs) o) z zs := by
  obtain ⟨y₁, hy₁, hu₁⟩ := bind_eq_some_iff.mp hu₁
  obtain ⟨y₂, hy₂, hu₂⟩ := bind_eq_some_iff.mp hu₂
  have hoshape := (shape_updated ho).trans hbase
  have hdrawn₁ : Drawn m.diffidx s t (o.read 0) (fun k => some (a₁ + k)) n₁ o u₁ :=
    h.takes.drawn hoshape hu₁ fun c hc =>
      read_updated henv (hbase.symm ▸ h.takes.ok) hus (hbase.symm ▸ hholds.slice_unwritten) ho hy₁ hc
  have hdrawn₂ : Drawn m.diffidx s t (o.read 0) (fun k => some (a₂ + k)) n₂ o u₂ :=
    h.takes2.drawn hoshape hu₂ fun c hc =>
      read_updated henv (hbase.symm ▸ h.takes2.ok) hus (hbase.symm ▸ hholds.slice2_unwritten) ho hy₂ hc
  refine sameResults_of_sources hv h.located hf.lt hf.startIndices_eq h.ordered henv hoshape
    ((read_slice hu₁).2.1.trans hs.size_eq.symm) hdrawn₁ hdrawn₂
    (fun p hp => drawn_lowerExtend (hoshape.symm ▸ hf.lt) hp hholds.lhs_le hholds.rhs_le) hholds.size_le
    hholds.middle_unwritten (hholds.in_place.imp_right fun hplace q _ => ?_) hz
  exact (agree hf h henv hholds.lhs_le hholds.rhs_le hholds.size_le hplace).eq q

theorem exists_run (hs2 : slice2.Verified stack.shape stack.dus2)
    (hpreserves : ExtendPreserves α start stack slice slice2 m)
    (hx : x.shape = stack.shape) (a : α) : ∃ o y z z' p u zs zs' u₁, Same o x ∧ u₁.shape = stack.dus.updateShape ∧
      Sourced m.diffidx s t a (spliced (clampStart (coord stack.shape m.diffidx) n₂ (env v₂)) n₂
        (fun k => some (a₂ + k)) some) x y ∧
      Sourced m.diffidx s t a (stackSource (coord stack.shape m.diffidx) (env v₁) (env v₂) n₁ n₂
        (fun k => some (a₁ + k)) fun k => some (a₂ + k)) x z ∧
      dynamicUpdateSlice (stack.dus.startIndices.map env) u₁ y = some z ∧
      allSome (stack.middleSlices.map fun dims => Tensor.slice dims y) = some zs ∧
      Tensor.slice m.preslice o = some p ∧ lowerExtend m.diffidx m.lhs m.rhs p = some u ∧
      dynamicUpdateSlice (m.startIndices.map env) u o = some z' ∧
      allSome (stack.middleSlices.map fun dims => Tensor.slice dims z') = some zs' ∧
      Same z' z ∧ Forall₂ Same zs' zs := by
  have hfit : FitInto x.shape stack.chain := fun dus hdus =>
    hx.symm ▸ hv.updates dus (mem_cons_of_mem _ (mem_cons_of_mem _ hdus))
  obtain ⟨us, hus, hsame⟩ := exists_unchanged env hfit
  obtain ⟨o, y₁, y₂, u₁, u₂, z, zs, ho, hy₁, hy₂, hu₁, hu₂, hz⟩ := exists_results hv hs hs2 hx hus
  have hread : ∀ {b : Border} {y : Tensor α}, Forall₂ SliceDim.Ok b.dims stack.shape → Same y x →
      ∀ c : Nat → Nat, (∀ e < b.dims.length, c e < (sliceDim b.dims e).size) →
        (y.read fun e => (sliceDim b.dims e).source (c e)) = x.read fun e => (sliceDim b.dims e).source (c e) := by
    intro b y hok hyx c hc
    obtain ⟨hlen, hok⟩ := forall₂_ok_iff.mp hok
    refine hyx.read_eq fun e he => ?_
    rw [hyx.shape_eq, hx] at he ⊢
    exact SliceDim.source_lt (hok e (hlen.symm ▸ he)) (hc e (hlen.symm ▸ he))
  have hox : Same o x := hsame 0 o ho
  have hdrawn₁ : Drawn m.diffidx s t a (fun k => some (a₁ + k)) n₁ x u₁ :=
    h.takes.drawn hx hu₁ (hread h.takes.ok (hsame _ y₁ hy₁))
  have hdrawn₂ : Drawn m.diffidx s t a (fun k => some (a₂ + k)) n₂ x u₂ :=
    h.takes2.drawn hx hu₂ (hread h.takes2.ok (hsame _ y₂ hy₂))
  obtain ⟨z', zs', hz', hsame', hsames⟩ := hpreserves env us x o u₁ u₂ z zs henv hx hus ho
    (bind_eq_some_iff.mpr ⟨y₁, hy₁, hu₁⟩) (bind_eq_some_iff.mpr ⟨y₂, hy₂, hu₂⟩) hz
  obtain ⟨y, hy, hz, hzs⟩ := Stack.eval_eq_some hz
  obtain ⟨p, u, hp, hu, hz', hzs'⟩ := Merged.eval_eq_some hz'
  obtain ⟨hySourced, hzSourced⟩ := h.ordered.sourced hf.lt h.located.fits henv hx hox hdrawn₁ hdrawn₂ hy hz
  exact ⟨o, y, z, z', p, u, zs, zs', u₁, hox, (read_slice hu₁).2.1.trans hs.size_eq.symm, hySourced, hzSourced, hz,
    hzs, hp, hu, hz', hzs', hsame', hsames⟩

end

/-- The extents are as they have to be for the extension and its update to be well formed. -/
theorem fits_of_run {p : Tensor α} (hx : x.shape = stack.shape) (ho : Same o x)
    (hp : Tensor.slice m.preslice o = some p) (hu : lowerExtend m.diffidx m.lhs m.rhs p = some u)
    (hz : dynamicUpdateSlice (m.startIndices.map env) u o = some z) (a : α) :
    m.lhs ≤ m.gap ∧ m.rhs ≤ m.gap ∧ m.size ≤ coord stack.shape m.diffidx ∧
      Sourced m.diffidx s t a (mergedSource (coord stack.shape m.diffidx) m.size (env vl)
        (extendSource m₀ m.gap m.lhs m.rhs)) x z := by
  have hlt := hf.lt
  have hoshape := ho.shape_eq.trans hx
  have hdrawn : Drawn m.diffidx s t a (fun k => some (m₀ + k)) m.gap x p := by
    refine Drawn.slice hp (h.located.preslice_ok.length_eq.trans (congrArg _ hx.symm)) (fun c hc => ?_)
      fun e he => h.located.preslice_eq e (hx ▸ he)
    obtain ⟨hlen, hok⟩ := forall₂_ok_iff.mp h.located.preslice_ok
    refine ho.read_eq fun e he => ?_
    rw [hoshape] at he ⊢
    exact SliceDim.source_lt (hok e (hlen.symm ▸ he)) (hc e (hlen.symm ▸ he))
  have hgap : coord p.shape m.diffidx = m.gap := (hdrawn.coord_eq _ (hx.symm ▸ hlt)).trans (if_pos rfl)
  obtain ⟨hlhs, hrhs⟩ := le_of_lowerExtend (hdrawn.rank_eq.symm ▸ hx.symm ▸ hlt) hu
  rw [hgap] at hlhs hrhs
  obtain ⟨u', hu', huDrawn⟩ := drawn_lowerExtend (hx.symm ▸ hlt) hdrawn hlhs hrhs
  cases hu'.symm.trans hu
  refine ⟨hlhs, hrhs, ?_, h.located.sourced hlt hf.startIndices_eq henv hx ho huDrawn hz⟩
  have hle := coord_le_of_update hz (hoshape.symm ▸ hlt)
  rwa [huDrawn.coord_eq _ (hx.symm ▸ hlt), if_pos rfl, hoshape] at hle

/-- Without elements in another dimension, or where the elements come from the same places. -/
theorem in_place_of_preserves [Nontrivial α] (hv : stack.Verified start) (hs : slice.Verified stack.shape stack.dus)
    (hs2 : slice2.Verified stack.shape stack.dus2) (hpreserves : ExtendPreserves α start stack slice slice2 m) :
    m.lhs ≤ m.gap ∧ m.rhs ≤ m.gap ∧ m.size ≤ coord stack.shape m.diffidx ∧ (NoElements stack m.diffidx ∨
      m.InBounds (coord stack.shape m.diffidx) ∨ m.Repeats (coord stack.shape m.diffidx) start) := by
  obtain ⟨a, -, -⟩ := exists_pair_ne α
  have hrun : ∀ x : Tensor α, x.shape = stack.shape → m.lhs ≤ m.gap ∧ m.rhs ≤ m.gap ∧
      m.size ≤ coord stack.shape m.diffidx ∧ ∃ z z', Same z' z ∧
        Sourced m.diffidx s t a (stackSource (coord stack.shape m.diffidx) (env v₁) (env v₂) n₁ n₂
          (fun k => some (a₁ + k)) fun k => some (a₂ + k)) x z ∧
        Sourced m.diffidx s t a (mergedSource (coord stack.shape m.diffidx) m.size (env vl)
          (extendSource m₀ m.gap m.lhs m.rhs)) x z' := by
    intro x hx
    obtain ⟨o, y, z, z', p, u, zs, zs', u₁, ho, -, -, hz, -, -, hp, hu, hz', -, hsame, -⟩ :=
      exists_run hf h henv hv hs hs2 hpreserves hx a
    obtain ⟨hlhs, hrhs, hsize, hsourced⟩ := fits_of_run hf h henv hx ho hp hu hz' a
    exact ⟨hlhs, hrhs, hsize, z, z', hsame, hz, hsourced⟩
  obtain ⟨hlhs, hrhs, hsize, -⟩ := hrun (splat stack.shape a) rfl
  refine ⟨hlhs, hrhs, hsize, ?_⟩
  by_contra hnot
  obtain ⟨helements, hplace⟩ := not_or.mp hnot
  refine hplace (inPlace_of_sources hf h henv hlhs hrhs hsize fun q hq => ?_)
  by_contra hne
  have hbox : ∀ e < stack.shape.length, e ≠ m.diffidx → 0 < t e ∧ s e + t e ≤ coord stack.shape e := by
    refine fun e he hed => ⟨?_, h.located.fits e he hed⟩
    rw [← h.located.size_eq e he hed]
    exact pos_of_ne_zero fun hzero => helements ⟨e, he, hed, hzero⟩
  obtain ⟨x, hx, hdiffer⟩ := exists_not_same hf.lt hbox hq hne a
  obtain ⟨-, -, -, z, z', hsame, hz, hz'⟩ := hrun x hx
  exact hdiffer z z' hz hz' hsame.symm

variable {c : Nat → Nat}

theorem read_stack (newer : Bool) (hapart : ∀ k < n₁, ∀ k' < n₂,
      clampStart (coord stack.shape m.diffidx) n₁ (env v₁) + k ≠
        clampStart (coord stack.shape m.diffidx) n₂ (env v₂) + k') (ho : o.shape = stack.shape)
    (hu₁ : u₁.shape = stack.dus.updateShape) (hu₂ : u₂.shape = stack.dus2.updateShape)
    (hz : stack.eval env o u₁ u₂ = some (z, zs)) (hc : Within stack.shape c)
    (hbox : InBox m.diffidx stack.shape.length s t c)
    (hline : clampStart (coord stack.shape m.diffidx) (cond newer n₁ n₂) (env (cond newer v₁ v₂)) ≤ c m.diffidx ∧
      c m.diffidx < clampStart (coord stack.shape m.diffidx) (cond newer n₁ n₂) (env (cond newer v₁ v₂)) +
        cond newer n₁ n₂) : z.read c = (cond newer u₁ u₂).read fun e => c e - if e = m.diffidx then
      clampStart (coord stack.shape m.diffidx) (cond newer n₁ n₂) (env (cond newer v₁ v₂)) else s e := by
  obtain ⟨y, hy, hz, -⟩ := Stack.eval_eq_some hz
  have hfits := h.located.fits
  have hcoord₁ : ∀ e < stack.shape.length, coord u₁.shape e = if e = m.diffidx then n₁ else t e :=
    fun e he => h.ordered.newer.coord_eq hu₁ h.ordered.newer_size he
  have hcoord₂ : ∀ e < stack.shape.length, coord u₂.shape e = if e = m.diffidx then n₂ else t e :=
    fun e he => h.ordered.older.coord_eq hu₂ h.ordered.older_size he
  have hstart₁ := fun e (he : e < stack.shape.length) => h.ordered.newer.updateStart_eq hfits henv hcoord₁ he
  have hstart₂ := fun e (he : e < stack.shape.length) => h.ordered.older.updateStart_eq hfits henv hcoord₂ he
  have hlt := hf.lt
  have hyshape : y.shape = o.shape := (read_dynamicUpdateSlice hy).2.1
  rw [← ho] at hlt hcoord₁ hcoord₂ hstart₁ hstart₂ hc hbox hline hapart ⊢
  obtain ⟨hin₁, hout₁⟩ := read_update hlt hyshape hcoord₁ hstart₁ hz hc
  obtain ⟨hin₂, -⟩ := read_update hlt rfl hcoord₂ hstart₂ hy hc
  cases newer with
  | true => exact hin₁ hbox hline
  | false =>
    refine (hout₁ fun hover => ?_).trans (hin₂ hbox hline)
    obtain ⟨-, hover⟩ := hover
    obtain ⟨k, hk⟩ := Nat.exists_eq_add_of_le hover.1
    obtain ⟨k', hk'⟩ := Nat.exists_eq_add_of_le hline.1
    refine hapart k (by omega) k' ?_ (hk.symm.trans hk')
    have hlt' := hline.2
    rw [hk'] at hlt'
    exact Nat.lt_of_add_lt_add_left hlt'

section

variable [Nontrivial α] (hv : stack.Verified start) (hs : slice.Verified stack.shape stack.dus)
  (hs2 : slice2.Verified stack.shape stack.dus2)
  (hpreserves : ExtendPreserves α start stack slice slice2 m)

include hv hs hs2 hpreserves

/-- The slices take nothing that is written behind the updates. -/
theorem unwritten_of_preserves (hagree : NoElements stack m.diffidx ∨
      Agree (mergedSource (coord stack.shape m.diffidx) m.size (env vl) (extendSource m₀ m.gap m.lhs m.rhs))
        (clampStart (coord stack.shape m.diffidx) n₁ (env v₁)) n₁ a₁
          (clampStart (coord stack.shape m.diffidx) n₂ (env v₂)) n₂ a₂) (newer : Bool) {dus : Dus V}
    (hdus : dus ∈ stack.chain.take (cond newer slice slice2).depth)
    (hc : ∀ e < (cond newer slice slice2).dims.length, c e < (sliceDim (cond newer slice slice2).dims e).size) :
    ¬∀ e < stack.shape.length, Writes (coord stack.shape e) (coord dus.updateShape e)
      ((dus.startIndices.map env).getD e 0) ((sliceDim (cond newer slice slice2).dims e).source (c e)) := by
  intro hwrites
  obtain ⟨p, q, hpq⟩ := exists_pair_ne α
  have hlt := hf.lt
  have hfits := h.located.fits
  have hfit : FitInto stack.shape stack.chain := fun dus hdus =>
    hv.updates dus (mem_cons_of_mem _ (mem_cons_of_mem _ hdus))
  have htakes : Takes stack m s t (cond newer slice slice2) (cond newer a₁ a₂) (cond newer n₁ n₂) := by
    cases newer with
    | true => exact h.takes
    | false => exact h.takes2
  obtain ⟨hrank, hok⟩ := forall₂_ok_iff.mp htakes.ok
  have hlt' : ∀ e < stack.shape.length, c e < if e = m.diffidx then cond newer n₁ n₂ else t e := by
    intro e he
    rw [← (htakes.dims_eq e he).1]
    exact hc e (hrank.symm ▸ he)
  have hagree := hagree.resolve_left fun hempty => by
    obtain ⟨e, he, hed, hzero⟩ := hempty
    have hat := hlt' e he
    rw [if_neg hed, ← h.located.size_eq e he hed, hzero] at hat
    exact Nat.not_lt_zero _ hat
  have hcd := hlt' m.diffidx hlt
  rw [if_pos rfl] at hcd
  have hsrc : Within stack.shape fun e => (sliceDim (cond newer slice slice2).dims e).source (c e) :=
    fun e he => SliceDim.source_lt (hok e (hrank.symm ▸ he)) (hc e (hrank.symm ▸ he))
  -- behind the updates there is `p` only, and they write `q`
  obtain ⟨us, hus, hbase, hwritten⟩ := exists_written env hfit p q (cond newer slice slice2).depth
  obtain ⟨o, y₁, y₂, u₁, u₂, z, zs, ho, hy₁, hy₂, hu₁, hu₂, hz⟩ :=
    exists_results hv hs hs2 (show (splat stack.shape p).shape = stack.shape from rfl) hus
  obtain ⟨z', zs', hz', hsame, -⟩ := hpreserves env us _ o u₁ u₂ z zs henv rfl hus ho
    (bind_eq_some_iff.mpr ⟨y₁, hy₁, hu₁⟩) (bind_eq_some_iff.mpr ⟨y₂, hy₂, hu₂⟩) hz
  obtain ⟨p', u, hp', hu, hz', -⟩ := Merged.eval_eq_some hz'
  have hoshape : o.shape = stack.shape := shape_updated ho
  obtain ⟨-, -, -, hsourced⟩ := fits_of_run hf h henv hoshape (.refl o) hp' hu hz' p
  have hu₀ : (cond newer u₁ u₂).read c = p := by
    have hslice : ∃ y, updated env (stack.chain.drop (cond newer slice slice2).depth)
        (us.drop (cond newer slice slice2).depth) (splat stack.shape p) = some y ∧
          Tensor.slice (cond newer slice slice2).dims y = some (cond newer u₁ u₂) := by
      cases newer with
      | true => exact ⟨y₁, hy₁, hu₁⟩
      | false => exact ⟨y₂, hy₂, hu₂⟩
    obtain ⟨y, hy, hslice⟩ := hslice
    obtain ⟨-, -, -, hread⟩ := read_slice hslice
    rw [hread c fun e he => ?_]
    · exact hbase y hy _ hsrc
    · rw [length_slice hslice] at he
      rw [coord_slice hslice he]
      exact hc e he
  -- the position in the result
  generalize hl : clampStart (coord stack.shape m.diffidx) (cond newer n₁ n₂) (env (cond newer v₁ v₂)) = l
  have hle : l + cond newer n₁ n₂ ≤ coord stack.shape m.diffidx := by
    rw [← hl]
    refine clampStart_le ?_ _
    cases newer with
    | true => exact h.ordered.newer_size ▸ coord_le_of_forall₂ (hv.updates stack.dus mem_cons_self).2 _
    | false =>
      exact h.ordered.older_size ▸
        coord_le_of_forall₂ (hv.updates stack.dus2 (mem_cons_of_mem _ mem_cons_self)).2 _
  let c' : Nat → Nat := fun e => (if e = m.diffidx then l else s e) + c e
  have hc'd : c' m.diffidx = l + c m.diffidx := by simp only [c', if_pos]
  have hbox : InBox m.diffidx stack.shape.length s t c' := by
    intro e he hed
    have hat := hlt' e he
    rw [if_neg hed] at hat
    simp only [c', if_neg hed]
    omega
  have hwithin : Within stack.shape c' := by
    intro e he
    by_cases hed : e = m.diffidx
    · rw [hed, hc'd]
      omega
    · have hat := hbox e he hed
      have hfit' := hfits e he hed
      omega
  have hzp : z.read c' = p := by
    rw [read_stack hf h henv newer hagree.apart hoshape ((read_slice hu₁).2.1.trans hs.size_eq.symm)
      ((read_slice hu₂).2.1.trans hs2.size_eq.symm) hz hwithin hbox (by rw [hl, hc'd]; omega), hl, ← hu₀]
    refine read_congr _ fun e _ => ?_
    simp only [c']
    omega
  have hcomes : ComesFrom (mergedSource (coord stack.shape m.diffidx) m.size (env vl)
      (extendSource m₀ m.gap m.lhs m.rhs)) l (cond newer n₁ n₂) (cond newer a₁ a₂) := by
    rw [← hl]
    cases newer with
    | true => exact hagree.first
    | false => exact hagree.second
  have hzq : z'.read c' = q := by
    rw [hsourced.read_in c' (hoshape.symm ▸ hwithin) (hoshape.symm ▸ hbox), hc'd, hcomes _ hcd, fromLine,
      ← hwritten o ho _ hsrc ⟨dus, hdus, hwrites⟩]
    refine read_congr o fun e he => ?_
    rw [hoshape] at he
    rw [(htakes.dims_eq e he).2]
    by_cases hed : e = m.diffidx
    · rw [hed, update_self, if_pos rfl]
    · rw [update_of_ne hed, if_neg hed]
      simp only [c', if_neg hed]
  rw [hsame.read_eq (hsourced.shape_eq.symm ▸ hoshape.symm ▸ hwithin), hzp] at hzq
  exact hpq hzq

/-- The slices between the updates take nothing that the newer one writes. -/
theorem middle_of_preserves (hsize : m.size ≤ coord stack.shape m.diffidx)
    (hplace : NoElements stack m.diffidx ∨ m.InBounds (coord stack.shape m.diffidx) ∨
      m.Repeats (coord stack.shape m.diffidx) start) (hagree : NoElements stack m.diffidx ∨
      Agree (mergedSource (coord stack.shape m.diffidx) m.size (env vl) (extendSource m₀ m.gap m.lhs m.rhs))
        (clampStart (coord stack.shape m.diffidx) n₁ (env v₁)) n₁ a₁
          (clampStart (coord stack.shape m.diffidx) n₂ (env v₂)) n₂ a₂) {dims : List SliceDim}
    (hdims : dims ∈ stack.middleSlices) (hc : ∀ e < dims.length, c e < (sliceDim dims e).size) :
    ∃ e < stack.shape.length, ¬Writes (coord stack.shape e) (coord stack.dus.updateShape e)
      ((stack.dus.startIndices.map env).getD e 0) ((sliceDim dims e).source (c e)) := by
  have hmiddleEq := h.located.middle_eq
  have hok := hv.middle_ok dims hdims
  have htest : ∀ {i : Int}, (start v₁).getSExtValue = some i → 0 ≤ i → i + n₁ ≤ coord stack.shape m.diffidx →
      ∃ e < stack.shape.length, ¬Writes (coord stack.shape e) (coord stack.dus.updateShape e)
        ((stack.dus.startIndices.map env).getD e 0) ((sliceDim dims e).source (c e)) := fun hi hpos hle =>
    h.ordered.newer.unwritten_of_avoids h.located.fits hi hpos (by rw [h.ordered.newer_size]; exact hle) hok
      (hf.avoids dims hdims) env henv c hc
  have hread := hf.left_read
  have hread' := hf.right_read
  rcases hplace with ⟨e, he, -, hzero⟩ | ⟨hle, hend⟩ | hrepeats
  · exact unwritten_of_noElements he hzero env henv c hc
  · rcases h.sides with ⟨-, rfl, rfl, rfl, rfl, -, -⟩ | ⟨-, rfl, rfl, rfl, rfl, -, -⟩
    · exact htest hread (by omega) (by omega)
    · exact htest hread' (by omega) (by omega)
  · rcases (inPlace_iff hf h henv).mp (.inr hrepeats) with ⟨hle, hend⟩ | ⟨hlhs, hrhs, hstart, hmoved⟩
    · rcases h.sides with ⟨-, rfl, rfl, rfl, rfl, -, -⟩ | ⟨-, rfl, rfl, rfl, rfl, -, -⟩
      · exact htest hread (by omega) (by omega)
      · exact htest hread' (by omega) (by omega)
    · have hfit := clampStart_le hsize (env vl)
      have hsizeEq : m.size = m.lhs + (m.gap + m.rhs) := rfl
      rw [hsizeEq, hstart] at hfit
      obtain ⟨hright, -⟩ := env_eq hf h henv
      have hrstart : clampStart (coord stack.shape m.diffidx) m.rhs (env vr) = m₀ + m.gap := by
        rw [hright, clampStart]
        omega
      rcases h.sides with ⟨-, rfl, rfl, rfl, rfl, ha₁, rfl⟩ | ⟨-, rfl, rfl, rfl, rfl, -, -⟩
      · -- the left update has moved over elements of the operand
        by_contra hnot
        simp only [not_exists, not_and, not_not] at hnot
        obtain ⟨hrank, hdimsOk⟩ := forall₂_ok_iff.mp hok
        have hcoord : ∀ e < stack.shape.length, coord stack.dus.updateShape e =
            if e = m.diffidx then m.lhs else t e := fun e he =>
          h.ordered.newer.coord_eq rfl h.ordered.newer_size he
        have hwrites : ∀ e < stack.shape.length, (if e = m.diffidx then m₀ + m.gap + m.rhs else s e) ≤
            (sliceDim dims e).source (c e) ∧ (sliceDim dims e).source (c e) <
              (if e = m.diffidx then m₀ + m.gap + m.rhs else s e) + if e = m.diffidx then m.lhs else t e := by
          intro e he
          have hat := hnot e he
          rw [← hcoord e he, ← hmoved, ← h.ordered.newer.updateStart_eq h.located.fits henv hcoord he]
          exact hat
        have hline := hwrites m.diffidx hf.lt
        rw [if_pos rfl, if_pos rfl] at hline
        have hsrc : Within stack.shape fun e => (sliceDim dims e).source (c e) := fun e he =>
          SliceDim.source_lt (hdimsOk e (hrank.symm ▸ he)) (hc e (hrank.symm ▸ he))
        have hbox : InBox m.diffidx stack.shape.length s t fun e => (sliceDim dims e).source (c e) := by
          intro e he hed
          have hat := hwrites e he
          rwa [if_neg hed, if_neg hed] at hat
        obtain ⟨k, hk⟩ := Nat.exists_eq_add_of_le hline.1
        have hklt : k < m.lhs := by omega
        have hne : some (m₀ + k) ≠ some ((sliceDim dims m.diffidx).source (c m.diffidx)) := fun heq => by
          have hpos := hf.gap_pos
          have heq := some.inj heq
          omega
        obtain ⟨a, -, -⟩ := exists_pair_ne α
        obtain ⟨x, hx, hdiffer⟩ := exists_fromLine_ne hf.lt hne a fun e => (sliceDim dims e).source (c e)
        obtain ⟨o, y, z, z', p, u, zs, zs', u₁, -, -, hy, hz, -, hzs, -, -, -, hzs', hsame, hsames⟩ :=
          exists_run hf h henv hv hs hs2 hpreserves hx a
        have hwithin : Within x.shape fun e => (sliceDim dims e).source (c e) := hx.symm ▸ hsrc
        have hinbox : InBox m.diffidx x.shape.length s t fun e => (sliceDim dims e).source (c e) := hx.symm ▸ hbox
        have heq := read_of_slices_same hzs hzs' hsames hdims hc
        rw [hsame.read_eq (hsame.shape_eq.symm ▸ hz.shape_eq.symm ▸ hwithin), hz.read_in _ hwithin hinbox,
          hy.read_in _ hwithin hinbox] at heq
        refine hdiffer ?_
        have hnewer : stackSource (coord stack.shape m.diffidx) (env v₁) (env v₂) m.lhs m.rhs
            (fun k => some (a₁ + k)) (fun k => some (m₀ + m.gap - m.rhs + k))
              ((sliceDim dims m.diffidx).source (c m.diffidx)) = some (m₀ + k) := by
          rw [stackSource, hmoved, hk, spliced_of_lt hklt, ha₁]
        have holder : spliced (clampStart (coord stack.shape m.diffidx) m.rhs (env v₂)) m.rhs
            (fun k => some (m₀ + m.gap - m.rhs + k)) some ((sliceDim dims m.diffidx).source (c m.diffidx)) =
              some ((sliceDim dims m.diffidx).source (c m.diffidx)) := by
          rw [spliced, if_neg (by rw [hrstart]; omega)]
        rw [hnewer, holder] at heq
        exact heq
      · exact htest hread' (by omega) (by omega)

end

end Extends

/-- The extension is right if and only if it fits, its slices are of what they seem to be of, and the borders are where
the constants say. -/
theorem extendPreserves_iff [DecidableEq V] [Nontrivial α] (hv : stack.Verified start)
    (hs : slice.Verified stack.shape stack.dus) (hs2 : slice2.Verified stack.shape stack.dus2)
    (hm : DUSDUSToDUSExtend start stack slice slice2 = some m) :
    ExtendPreserves α start stack slice slice2 m ↔ ExtendHoldsWhen start stack slice slice2 m := by
  obtain ⟨starts, left, right, vl, vr, v₁, v₂, s, t, m₀, n₁, n₂, a₁, a₂, hf, h⟩ := extends_of_fires hv hs hs2 hm
  constructor
  · intro hpreserves
    obtain ⟨env, henv⟩ := hv.typed
    obtain ⟨hlhs, hrhs, hsize, hplace⟩ := Extends.in_place_of_preserves hf h henv hv hs hs2 hpreserves
    have hagree := fun {env} (henv : Typed start env) =>
      hplace.imp_right fun hplace => Extends.agree hf h henv hlhs hrhs hsize hplace
    have hunwritten : ∀ newer : Bool, ∀ dus ∈ stack.chain.take (cond newer slice slice2).depth,
        Unwritten start stack.shape (cond newer slice slice2).dims dus := by
      intro newer dus hdus env henv c hc
      by_contra hnot
      simp only [not_exists, not_and, not_not] at hnot
      exact Extends.unwritten_of_preserves hf h henv hv hs hs2 hpreserves (hagree henv) newer hdus hc hnot
    exact ⟨hlhs, hrhs, hsize, hunwritten true, hunwritten false, fun dims hdims env henv c hc =>
      Extends.middle_of_preserves hf h henv hv hs hs2 hpreserves hsize hplace (hagree henv) hdims hc, hplace⟩
  · intro hholds env us base operand update update2 z zs henv hbase hus ho hu₁ hu₂ hz
    exact Extends.sameResults hf h henv hv hs hholds hbase hus ho hu₁ hu₂ hz

end

/-! ### When the pad is right -/

section

variable {α : Type} {start : V → StartIndex} {stack : Stack V} {m : Merged V} {starts : List Int}
  {left right : Dus V} {vl vr : V} {env : V → Int} {s t : Nat → Nat} {m₀ : Nat} {v cst cst2 : α} {x p z : Tensor α}
  {zs : List (Tensor α)}

theorem fired_of_pad [DecidableEq V] [DecidableEq α] (hv : stack.Verified start)
    (h : DUSDUSToDUSPad start stack cst cst2 = some m) :
    cst = cst2 ∧ ∃ starts left right vl vr, Fired start stack m starts left right vl vr := by
  obtain ⟨_, heq, h⟩ := bind_eq_some_iff.mp h
  obtain ⟨⟨starts, d, idx0, idx1⟩, hmatch, h⟩ := bind_eq_some_iff.mp h
  rw [guard_eq_some'] at heq
  refine ⟨heq, ?_⟩
  dsimp only at h
  split_ifs at h with hleft hright
  · cases h
    obtain ⟨vl, vr, hf, -⟩ := fired_of_merge hv hmatch (.inl ⟨rfl, rfl, rfl, rfl⟩) hleft rfl
    exact ⟨starts, _, _, vl, vr, hf⟩
  · cases h
    obtain ⟨vl, vr, hf, -⟩ := fired_of_merge hv hmatch (.inr ⟨rfl, rfl, rfl, rfl⟩) hright rfl
    exact ⟨starts, _, _, vl, vr, hf⟩

theorem Fired.located_of_ok (hf : Fired start stack m starts left right vl vr) (hv : stack.Verified start)
    (hok : Forall₂ SliceDim.Ok m.preslice stack.shape) :
    Located start stack m left right vl vr (fun e => (starts.getD e 0).toNat) (coord stack.dus.updateShape)
      m.middle.toNat := by
  obtain ⟨hlen, hok⟩ := forall₂_ok_iff.mp hok
  have hat := fun e (he : e < stack.shape.length) => hok e (hlen.symm ▸ he)
  have hd := hat m.diffidx hf.lt
  rw [hf.preslice_eq _ hf.lt, if_pos rfl] at hd
  refine hf.located hv (fun e he hed => ?_) hd.1 hd.2.2.1
  have hdim := hat e he
  rw [hf.preslice_eq e he, if_neg hed] at hdim
  exact ⟨hdim.1, hdim.2.2.1⟩

theorem Located.ordered (hf : Fired start stack m starts left right vl vr)
    (h : Located start stack m left right vl vr s t m₀) :
    (Ordered start stack m s t vl vr m.lhs m.rhs ∧ left = stack.dus) ∨
      (Ordered start stack m s t vr vl m.rhs m.lhs ∧ right = stack.dus) := by
  have hlhs := hf.lhs_eq
  have hrhs := hf.rhs_eq
  have hleft := h.left
  have hright := h.right
  rcases hf.sides with ⟨rfl, rfl⟩ | ⟨rfl, rfl⟩
  · exact .inl ⟨⟨hleft, hright, hlhs, hrhs⟩, rfl⟩
  · exact .inr ⟨⟨hright, hleft, hrhs, hlhs⟩, rfl⟩

def padSource (m₀ g a : Nat) : Nat → Option Nat := spliced a g (fun k => some (m₀ + k)) fun _ => none

theorem drawn_pad (hd : m.diffidx < x.shape.length) (hp : Drawn m.diffidx s t v (fun k => some (m₀ + k)) m.gap x p)
    (hrank : stack.dus.updateShape.length = x.shape.length) :
    ∃ u, m.pad stack v p = some u ∧ Drawn m.diffidx s t v (padSource m₀ m.gap m.lhs) m.size x u := by
  have hsize : ∀ e < x.shape.length, padDim (padAlong x.shape.length m.diffidx m.lhs m.rhs) e =
      if e = m.diffidx then ⟨m.lhs, m.rhs, 0⟩ else ⟨0, 0, 0⟩ := by
    intro e he
    rw [padDim_eq_getElem (by rwa [padAlong, length_set, length_replicate])]
    simp only [padAlong, getElem_set, getElem_replicate]
    exact if_congr eq_comm rfl rfl
  obtain ⟨u, hu⟩ : ∃ u, Tensor.pad (padAlong x.shape.length m.diffidx m.lhs m.rhs) v p = some u := by
    refine exists_pad v ?_ fun e he => ?_
    · rw [padAlong, length_set, length_replicate, hp.rank_eq]
    · rw [padAlong, length_set, length_replicate] at he
      rw [hsize e he]
      split
      · exact ⟨le_rfl, by rw [PadDim.size_of_interior rfl]; dsimp only; omega⟩
      · exact ⟨le_rfl, by rw [PadDim.size_of_interior rfl]; dsimp only; omega⟩
  refine ⟨u, ?_, hp.pad hd hu⟩
  rw [Merged.pad, hrank]
  exact hu

theorem padSource_eq {g a b q l e r : Nat} (hl : l + a = m₀) (hr : r = m₀ + g) (he : e = l) :
    spliced l a (fun _ => none) (spliced r b (fun _ => none) some) q =
        spliced e (a + (g + b)) (padSource m₀ g a) some q ∧
      spliced r b (fun _ => none) (spliced l a (fun _ => none) some) q =
        spliced e (a + (g + b)) (padSource m₀ g a) some q := by
  simp only [spliced, padSource]
  constructor
  · split_ifs <;> first | rfl | omega | exact congrArg some (by omega)
  · split_ifs <;> first | rfl | omega | exact congrArg some (by omega)

theorem eq_of_spliced_none {l n r k q i : Nat}
    (h : spliced l n (fun _ => none) (spliced r k (fun _ => none) some) q = some i) : i = q := by
  rw [spliced, spliced] at h
  split_ifs at h
  exact (some.inj h).symm

section

variable (hf : Fired start stack m starts left right vl vr) (h : Located start stack m left right vl vr s t m₀)
  (henv : Typed start env)

include hf h henv

theorem pad_sources_of_inBounds (hplace : m.InBounds (coord stack.shape m.diffidx)) (q : Nat) :
    stackSource (coord stack.shape m.diffidx) (env vl) (env vr) m.lhs m.rhs (fun _ => none) (fun _ => none) q =
        mergedSource (coord stack.shape m.diffidx) m.size (env vl) (padSource m₀ m.gap m.lhs) q ∧
      stackSource (coord stack.shape m.diffidx) (env vr) (env vl) m.rhs m.lhs (fun _ => none) (fun _ => none) q =
        mergedSource (coord stack.shape m.diffidx) m.size (env vl) (padSource m₀ m.gap m.lhs) q := by
  have hleft := hf.left_read
  have hright := hf.right_read
  rw [h.middle_eq] at hleft hright
  obtain ⟨hpos, hend⟩ := hplace
  rw [h.middle_eq] at hpos hend
  have hvr := eq_of_getSExtValue (henv vr) hright (by omega)
  have hvl := eq_of_getSExtValue (henv vl) hleft (by omega)
  have hsize : m.size = m.lhs + (m.gap + m.rhs) := rfl
  rw [stackSource, stackSource, mergedSource, hvl, hvr, hsize]
  refine padSource_eq ?_ ?_ ?_
  · rw [clampStart]
    omega
  · rw [clampStart]
    omega
  · rw [clampStart, clampStart]
    omega

theorem pad_inBounds_of_sources {φ : Nat → Option Nat} (hsize : m.size ≤ coord stack.shape m.diffidx)
    (hφ : ∀ q i, φ q = some i → i = q) (heq : ∀ q < coord stack.shape m.diffidx,
      φ q = mergedSource (coord stack.shape m.diffidx) m.size (env vl) (padSource m₀ m.gap m.lhs) q) :
    m.InBounds (coord stack.shape m.diffidx) := by
  have hleft := hf.left_read
  have hgap := hf.gap_pos
  rw [h.middle_eq] at hleft
  have hle := clampStart_le hsize (env vl)
  have hsizeEq : m.size = m.lhs + (m.gap + m.rhs) := rfl
  have hsrc : mergedSource (coord stack.shape m.diffidx) m.size (env vl) (padSource m₀ m.gap m.lhs)
      (clampStart (coord stack.shape m.diffidx) m.size (env vl) + m.lhs) = some m₀ := by
    rw [mergedSource, spliced_of_lt (by omega), padSource]
    have hzero : spliced m.lhs m.gap (fun k => some (m₀ + k)) (fun _ => none) (m.lhs + 0) = some (m₀ + 0) :=
      spliced_of_lt hgap
    rwa [add_zero, add_zero] at hzero
  have hplace := hφ _ _ ((heq _ (by omega)).trans hsrc)
  have hvl := eq_of_getSExtValue (henv vl) hleft (by omega)
  rw [Merged.InBounds, h.middle_eq]
  omega

end

theorem padPreserves_iff [DecidableEq V] [DecidableEq α] [Nontrivial α] (hv : stack.Verified start)
    (hm : DUSDUSToDUSPad start stack v cst2 = some m) : PadPreserves start stack v m ↔ PadHoldsWhen stack m := by
  obtain ⟨-, starts, left, right, vl, vr, hf⟩ := fired_of_pad hv hm
  have hlt := hf.lt
  obtain ⟨-, hle⟩ := hv.updates stack.dus mem_cons_self
  have hsplat : ∀ {s t : Nat → Nat} {v₁ v₂ : V} {n₁ n₂ : Nat} {x : Tensor α},
      Ordered start stack m s t v₁ v₂ n₁ n₂ → x.shape = stack.shape →
        Drawn m.diffidx s t v (fun _ => none) n₁ x (splat stack.dus.updateShape v) ∧
          Drawn m.diffidx s t v (fun _ => none) n₂ x (splat stack.dus2.updateShape v) := fun hord hx =>
    ⟨.splat (hord.newer.rank_eq.trans (congrArg _ hx.symm)) fun e he =>
        hord.newer.coord_eq rfl hord.newer_size (hx ▸ he),
      .splat (hord.older.rank_eq.trans (congrArg _ hx.symm)) fun e he =>
        hord.older.coord_eq rfl hord.older_size (hx ▸ he)⟩
  constructor
  · intro hpreserves
    obtain ⟨env, henv⟩ := hv.typed
    have hrun : ∀ x : Tensor α, x.shape = stack.shape → ∃ z zs z' p u,
        stack.eval env x (splat stack.dus.updateShape v) (splat stack.dus2.updateShape v) = some (z, zs) ∧
          Tensor.slice m.preslice x = some p ∧ m.pad stack v p = some u ∧
            dynamicUpdateSlice (m.startIndices.map env) u x = some z' ∧ Same z' z := by
      intro x hx
      obtain ⟨z, zs, hz⟩ : ∃ z zs, stack.eval env x (splat stack.dus.updateShape v)
          (splat stack.dus2.updateShape v) = some (z, zs) := exists_stack_eval hv hx rfl rfl
      obtain ⟨z', zs', hz', hsame, -⟩ := hpreserves env x z zs henv hx hz
      obtain ⟨p, u, hp, hu, hz', -⟩ := Merged.eval_eq_some hz'
      exact ⟨z, zs, z', p, u, hz, hp, hu, hz', hsame⟩
    have hok : Forall₂ SliceDim.Ok m.preslice stack.shape := by
      obtain ⟨z, zs, z', p, u, -, hp, -⟩ := hrun (splat stack.shape v) rfl
      exact (ite_none_right_eq_some.mp hp).1
    have hloc := hf.located_of_ok hv hok
    generalize (fun e => (starts.getD e 0).toNat) = s at hloc
    generalize coord stack.dus.updateShape = t at hloc
    generalize m.middle.toNat = m₀ at hloc
    have hnew : ∀ {x p u z' : Tensor α}, x.shape = stack.shape → Tensor.slice m.preslice x = some p →
        m.pad stack v p = some u → dynamicUpdateSlice (m.startIndices.map env) u x = some z' →
          m.size ≤ coord stack.shape m.diffidx ∧ Sourced m.diffidx s t v
            (mergedSource (coord stack.shape m.diffidx) m.size (env vl) (padSource m₀ m.gap m.lhs)) x z' := by
      intro x p u z' hx hp hu hz'
      have hdrawn := hloc.drawn_preslice hx hp (a := v)
      obtain ⟨u', hu', hdrawn⟩ := drawn_pad (hx.symm ▸ hlt) hdrawn (hle.length_eq.trans (congrArg _ hx.symm))
      cases hu'.symm.trans hu
      refine ⟨?_, hloc.sourced hlt hf.startIndices_eq henv hx (.refl x) hdrawn hz'⟩
      have hat := coord_le_of_update hz' (hx.symm ▸ hlt)
      rwa [hdrawn.coord_eq _ (hx.symm ▸ hlt), if_pos rfl, hx] at hat
    have hsize : m.size ≤ coord stack.shape m.diffidx := by
      obtain ⟨z, zs, z', p, u, -, hp, hu, hz', -⟩ := hrun (splat stack.shape v) rfl
      exact (hnew rfl hp hu hz').1
    refine ⟨hok, hsize, ?_⟩
    by_contra hnot
    obtain ⟨helements, hplace⟩ := not_or.mp hnot
    have hbox : ∀ e < stack.shape.length, e ≠ m.diffidx → 0 < t e ∧ s e + t e ≤ coord stack.shape e := by
      refine fun e he hed => ⟨?_, hloc.fits e he hed⟩
      rw [← hloc.size_eq e he hed]
      exact pos_of_ne_zero fun hzero => helements ⟨e, he, hed, hzero⟩
    have hcontra : ∀ {v₁ v₂ n₁ n₂}, ¬Ordered start stack m s t v₁ v₂ n₁ n₂ := by
      intro v₁ v₂ n₁ n₂ hord
      have hnone : ∀ q i, stackSource (coord stack.shape m.diffidx) (env v₁) (env v₂) n₁ n₂ (fun _ => none)
          (fun _ => none) q = some i → i = q := fun _ _ => eq_of_spliced_none
      refine hplace (pad_inBounds_of_sources hf hloc henv hsize hnone fun q hq => ?_)
      by_contra hne
      obtain ⟨x, hx, hdiffer⟩ := exists_not_same hlt hbox hq hne v
      obtain ⟨z, zs, z', p, u, hz, hp, hu, hz', hsame⟩ := hrun x hx
      obtain ⟨y, hy, hz, -⟩ := Stack.eval_eq_some hz
      obtain ⟨hdrawn₁, hdrawn₂⟩ := hsplat hord hx
      exact hdiffer z z' (hord.sourced hlt hloc.fits henv hx (.refl x) hdrawn₁ hdrawn₂ hy hz).2
        (hnew hx hp hu hz').2 hsame.symm
    rcases hloc.ordered hf with ⟨hord, -⟩ | ⟨hord, -⟩
    · exact hcontra hord
    · exact hcontra hord
  · intro hholds env x z zs henv hx hz
    have hloc := hf.located_of_ok hv hholds.preslice_ok
    have hmiddle : ∀ dims ∈ stack.middleSlices, Unwritten start stack.shape dims stack.dus := by
      intro dims hdims
      have hread := hf.left_read
      have hread' := hf.right_read
      rcases hholds.in_place with ⟨e, he, -, hzero⟩ | ⟨hpos, hend⟩
      · exact unwritten_of_noElements he hzero
      · have havoids := hf.avoids dims hdims
        rcases hloc.ordered hf with ⟨hord, -⟩ | ⟨hord, -⟩
        · exact hord.newer.unwritten_of_avoids hloc.fits hread (by omega) (by rw [hord.newer_size]; omega)
            (hv.middle_ok dims hdims) havoids
        · exact hord.newer.unwritten_of_avoids hloc.fits hread' (by omega) (by rw [hord.newer_size]; omega)
            (hv.middle_ok dims hdims) havoids
    rcases hloc.ordered hf with ⟨hord, -⟩ | ⟨hord, -⟩
    · obtain ⟨hdrawn₁, hdrawn₂⟩ := hsplat hord hx
      exact sameResults_of_sources hv hloc hlt hf.startIndices_eq hord henv hx rfl hdrawn₁ hdrawn₂
        (fun p hp => drawn_pad (hx.symm ▸ hlt) hp (hle.length_eq.trans (congrArg _ hx.symm))) hholds.size_le hmiddle
        (hholds.in_place.imp_right fun hplace q _ => (pad_sources_of_inBounds hf hloc henv hplace q).1) hz
    · obtain ⟨hdrawn₁, hdrawn₂⟩ := hsplat hord hx
      exact sameResults_of_sources hv hloc hlt hf.startIndices_eq hord henv hx rfl hdrawn₁ hdrawn₂
        (fun p hp => drawn_pad (hx.symm ▸ hlt) hp (hle.length_eq.trans (congrArg _ hx.symm))) hholds.size_le hmiddle
        (hholds.in_place.imp_right fun hplace q _ => (pad_sources_of_inBounds hf hloc henv hplace q).2) hz

end

/-- Both patterns are right exactly if the update fits and the borders are where the constants say, and for an
extension if the slice between them is as wide as each. -/
theorem borderUpdates_right_iff {α : Type} [DecidableEq V] [DecidableEq α] [Nontrivial α] (start : V → StartIndex)
    (stack : Stack V) (hv : stack.Verified start) :
    (∀ slice slice2 m, slice.Verified stack.shape stack.dus → slice2.Verified stack.shape stack.dus2 →
      DUSDUSToDUSExtend start stack slice slice2 = some m →
        (ExtendPreserves α start stack slice slice2 m ↔ ExtendHoldsWhen start stack slice slice2 m)) ∧
    ∀ (cst cst2 : α) m, DUSDUSToDUSPad start stack cst cst2 = some m →
      (PadPreserves start stack cst m ↔ PadHoldsWhen stack m) :=
  ⟨fun _ _ _ hs hs2 hm => extendPreserves_iff hv hs hs2 hm, fun _ _ _ hm => padPreserves_iff hv hm⟩

/-! ### Borders of eight elements -/

namespace Eight

def start (v : Nat) : StartIndex := .constant ⟨64, false⟩ (v % 8 : Nat)

/-- The first `n` elements are updated after the last `k` ones. -/
def stack (n k : Nat) (v : Nat) : Stack Nat := ⟨[8], ⟨[n], [0]⟩, ⟨[k], [v]⟩, [], []⟩

theorem typed : Typed start fun v => (v % 8 : Nat) := by
  have hwrap : ∀ n < 8, IntType.wrap ⟨64, false⟩ (n : Nat) = n := by decide
  exact fun v => ⟨rfl, hwrap _ (Nat.mod_lt v (by decide))⟩

theorem verified {n k v : Nat} (hn : n ≤ 8) (hk : k ≤ 8) : (stack n k v).Verified start := by
  refine ⟨⟨_, typed⟩, fun dus hdus => ?_, forall_mem_nil _⟩
  rcases mem_cons.mp hdus with rfl | hdus
  · exact ⟨rfl, .cons hn .nil⟩
  · obtain rfl := mem_singleton.mp hdus
    exact ⟨rfl, .cons hk .nil⟩

theorem borderUpdates_right_iff_eight :
    (∃ m, DUSDUSToDUSExtend start (stack 1 1 4) ⟨[⟨1, 2, 1⟩], 0⟩ ⟨[⟨3, 4, 1⟩], 0⟩ = some m ∧
      ExtendPreserves Bool start (stack 1 1 4) ⟨[⟨1, 2, 1⟩], 0⟩ ⟨[⟨3, 4, 1⟩], 0⟩ m) ∧
    ∃ m, DUSDUSToDUSPad start (stack 1 1 4) true true = some m ∧ PadPreserves start (stack 1 1 4) true m := by
  have hv : (stack 1 1 4).Verified start := verified (by decide) (by decide)
  obtain ⟨hextend, hpad⟩ := @borderUpdates_right_iff Nat Bool _ _ _ start (stack 1 1 4) hv
  refine ⟨⟨_, rfl, (hextend _ _ _ ⟨.cons (by decide) .nil, rfl⟩ ⟨.cons (by decide) .nil, rfl⟩ rfl).mpr ?_⟩, _, rfl,
    (hpad true true _ rfl).mpr ?_⟩
  · exact ⟨by decide, by decide, by decide, forall_mem_nil _, forall_mem_nil _, forall_mem_nil _,
      .inr (.inl ⟨by decide, by decide⟩)⟩
  · exact ⟨.cons (by decide) .nil, by decide, .inr ⟨by decide, by decide⟩⟩

/-- One element between borders of two and one is not extended by two. -/
theorem not_preserves_narrow : (stack 2 1 3).Verified start ∧ (Border.mk [⟨2, 4, 1⟩] 0).Verified [8] (stack 2 1 3).dus ∧
    (Border.mk [⟨2, 3, 1⟩] 0).Verified [8] (stack 2 1 3).dus2 ∧
    ∃ m, DUSDUSToDUSExtend start (stack 2 1 3) ⟨[⟨2, 4, 1⟩], 0⟩ ⟨[⟨2, 3, 1⟩], 0⟩ = some m ∧
      ¬ExtendPreserves Bool start (stack 2 1 3) ⟨[⟨2, 4, 1⟩], 0⟩ ⟨[⟨2, 3, 1⟩], 0⟩ m := by
  have hv : (stack 2 1 3).Verified start := verified (by decide) (by decide)
  have hs : (Border.mk [⟨2, 4, 1⟩] 0).Verified [8] (stack 2 1 3).dus := ⟨.cons (by decide) .nil, rfl⟩
  have hs2 : (Border.mk [⟨2, 3, 1⟩] 0).Verified [8] (stack 2 1 3).dus2 := ⟨.cons (by decide) .nil, rfl⟩
  refine ⟨hv, hs, hs2, _, rfl, fun hpreserves => ?_⟩
  have hholds := (extendPreserves_iff hv hs hs2 rfl).mp hpreserves
  exact absurd hholds.lhs_le (by decide)

end Eight

end EnzymeJax.BorderUpdates
