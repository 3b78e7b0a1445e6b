import EnzymeJax.Reverse.Broadcast
import EnzymeJax.Reverse.Concatenate
import EnzymeJax.Reverse.Window

/-!
# The reverse rules of the linear data-movement operations

An operation with its attributes and shapes, and the cotangent program its rule builds, which is its transposed map
but for slices whose last element is not the one before the limit.
-/

namespace EnzymeJax

open Tensor Finset Option

inductive DataMovement where
  | broadcastInDim (operand broadcastDimensions result : List Nat)
  | slice (operand : List Nat) (dims : List SliceDim)
  | reduceWindow (operand : List Nat) (dims : List WindowDim)
  /-- The operands come with whether they are constant. -/
  | concatenate (operands : List (List Nat × Bool)) (dimension : Nat)

namespace DataMovement

variable {R : Type*} [CommRing R]

/-- The verifier's condition on the attributes. -/
def Ok : DataMovement → Prop
  | broadcastInDim operand dims result => BroadcastOk operand dims result
  | slice operand dims => List.Forall₂ SliceDim.Ok dims operand
  | reduceWindow operand dims => dims.length = operand.length ∧ ∀ d ∈ dims, d.Ok
  | concatenate operands dimension => ConcatenateOk dimension (operands.map Prod.fst)

instance : (op : DataMovement) → Decidable op.Ok
  | broadcastInDim .. => inferInstanceAs (Decidable (BroadcastOk ..))
  | slice .. => inferInstanceAs (Decidable (List.Forall₂ ..))
  | reduceWindow .. => inferInstanceAs (Decidable (_ ∧ _))
  | concatenate .. => inferInstanceAs (Decidable (ConcatenateOk ..))

def operands : DataMovement → List (List Nat × Bool)
  | broadcastInDim operand .. | slice operand _ | reduceWindow operand _ => [(operand, false)]
  | concatenate operands _ => operands

def resultShape : DataMovement → List Nat
  | broadcastInDim _ _ result => result
  | slice _ dims => dims.map SliceDim.size
  | reduceWindow operand dims => List.zipWith WindowDim.numWindows dims operand
  | concatenate operands dimension => concatenateShape dimension (operands.map Prod.fst)

def forward : DataMovement → List (Tensor R) → Option (Tensor R)
  | broadcastInDim _ dims result, [x] => x.broadcastInDim dims result
  | slice _ dims, [x] => x.slice dims
  | reduceWindow _ dims, [x] => Tensor.reduceWindow dims x
  | concatenate _ dimension, xs => Tensor.concatenate dimension xs
  | _, _ => none

/-- The cotangents of the operands, where the operand is not constant. -/
def reverse : DataMovement → Tensor R → Option (List (Option (Tensor R)))
  | broadcastInDim operand dims result, y =>
    (reverseBroadcastInDim operand dims result y).map ([some ·])
  | slice operand dims, y => (reverseSlice dims operand y).map ([some ·])
  | reduceWindow operand dims, y => (reverseReduceWindow dims operand y).map ([some ·])
  | concatenate operands dimension, y => reverseConcatenate dimension y 0 operands

variable (R) in
/-- The cotangent program is well formed, has the shapes of the operands and is the transposed
map. -/
def Transposes (op : DataMovement) : Prop :=
  ∀ y : Tensor R, y.shape = op.resultShape → ∃ bs, op.reverse y = some bs ∧
    bs.map (Option.map shape) = cotangentShapes op.operands ∧
    ∀ xs, ConstantsZero op.operands xs → ∃ t, op.forward xs = some t ∧
      t.shape = op.resultShape ∧ dot t y = pairing xs bs

/-- A slice ends where its elements do. -/
def Aligned : DataMovement → Prop
  | slice _ dims => ∀ d ∈ dims, SliceDim.Aligned d
  | _ => True

instance : (op : DataMovement) → Decidable op.Aligned
  | slice _ dims => inferInstanceAs (Decidable (∀ d ∈ dims, _))
  | broadcastInDim .. | reduceWindow .. | concatenate .. => inferInstanceAs (Decidable True)

theorem pairing_singleton (x b : Tensor R) : pairing [x] [some b] = dot x b := by
  simp [pairing]

variable {operand : List Nat} {xs : List (Tensor R)} {operands : List (List Nat × Bool)}

theorem constantsZero_singleton :
    ConstantsZero [(operand, false)] xs ↔ ∃ x, x.shape = operand ∧ xs = [x] := by
  constructor
  · intro h
    cases h with
    | cons hx hrest =>
      cases hrest
      exact ⟨_, hx.1, rfl⟩
  · rintro ⟨x, hx, rfl⟩
    exact .cons ⟨hx, nofun⟩ .nil

theorem broadcastInDim_transposes {dims result : List Nat} (hok : BroadcastOk operand dims result) :
    (broadcastInDim operand dims result).Transposes R := by
  intro y hy
  obtain ⟨b, hb, hshape, -⟩ := reverseBroadcastInDim_eq hok hy
  refine ⟨[some b], by rw [reverse, hb]; rfl, by rw [← hshape]; rfl, fun xs hxs => ?_⟩
  obtain ⟨x, rfl, rfl⟩ := constantsZero_singleton.mp hxs
  refine ⟨_, if_pos hok, rfl, ?_⟩
  rw [pairing_singleton]
  exact dot_reverseBroadcastInDim (if_pos hok) hy hb

theorem slice_transposes_iff {dims : List SliceDim} (hok : List.Forall₂ SliceDim.Ok dims operand) :
    (slice operand dims).Transposes R ↔ ∀ d ∈ dims, SliceDim.Aligned d := by
  constructor
  · intro h
    obtain ⟨bs, hbs, hshapes, -⟩ := h (splat (dims.map SliceDim.size) 0) rfl
    obtain ⟨b, hb, haligned⟩ := reverseSlice_shape hok (y := splat _ (0 : R)) rfl
    rw [reverse, hb, map_some] at hbs
    cases hbs
    exact haligned.mp (some.inj (List.cons.inj hshapes).1)
  · intro haligned y hy
    obtain ⟨b, hb, hshape⟩ := reverseSlice_shape hok hy
    refine ⟨[some b], by rw [reverse, hb]; rfl, by rw [← hshape.mpr haligned]; rfl, fun xs hxs => ?_⟩
    obtain ⟨x, rfl, rfl⟩ := constantsZero_singleton.mp hxs
    refine ⟨_, if_pos hok, rfl, ?_⟩
    rw [pairing_singleton]
    exact dot_reverseSlice haligned (if_pos hok) hy hb

theorem reduceWindow_transposes {dims : List WindowDim} (hlen : dims.length = operand.length)
    (hok : ∀ d ∈ dims, d.Ok) : (reduceWindow operand dims).Transposes R := by
  intro y hy
  obtain ⟨b, hb, hshape⟩ := reverseReduceWindow_shape hok hlen hy
  refine ⟨[some b], by rw [reverse, hb]; rfl, by rw [← hshape]; rfl, fun xs hxs => ?_⟩
  obtain ⟨x, rfl, rfl⟩ := constantsZero_singleton.mp hxs
  refine ⟨_, if_pos ⟨hlen, hok⟩, rfl, ?_⟩
  rw [pairing_singleton]
  exact dot_reverseReduceWindow (if_pos ⟨hlen, hok⟩) hy hb

theorem map_shape_of_constantsZero (h : ConstantsZero operands xs) : xs.map shape = operands.map Prod.fst := by
  induction h with
  | nil => rfl
  | cons hx _ ih => rw [List.map_cons, List.map_cons, hx.1, ih]

theorem concatenate_transposes {dimension : Nat} (hok : ConcatenateOk dimension (operands.map Prod.fst)) :
    (concatenate operands dimension).Transposes R := by
  cases operands with
  | nil => cases hok
  | cons p operands =>
    intro y hy
    have hshapes : ∀ q ∈ p :: operands, q.1.set dimension 0 = p.1.set dimension 0 := by
      intro q hq
      rcases List.mem_cons.mp hq with rfl | hq
      · rfl
      · exact hok.2 q.1 (List.mem_map_of_mem hq)
    obtain ⟨bs, hbs, hbsShape, hpairing⟩ :=
      reverseConcatenate_eq 0 hy hshapes (zero_add _).le
    refine ⟨bs, hbs, hbsShape, fun xs hxs => ?_⟩
    have hmap : xs.map shape = (p :: operands).map Prod.fst := map_shape_of_constantsZero hxs
    cases xs with
    | nil => cases hmap
    | cons x xs =>
      rw [← hmap] at hok
      refine ⟨_, if_pos hok, congrArg (concatenateShape dimension) hmap, ?_⟩
      rw [← hpairing _ hxs]
      exact sum_concatenateGet_mul x hok y.get

/-- The reverse rules are transposes, but for the slices that stop short of their limit. -/
theorem transposes_iff {op : DataMovement} (hop : op.Ok) : op.Transposes R ↔ op.Aligned := by
  cases op with
  | broadcastInDim operand dims result =>
    exact iff_of_true (broadcastInDim_transposes hop) trivial
  | slice operand dims => exact slice_transposes_iff hop
  | reduceWindow operand dims => exact iff_of_true (reduceWindow_transposes hop.1 hop.2) trivial
  | concatenate operands dimension => exact iff_of_true (concatenate_transposes hop) trivial

/-- Every other element of five. -/
theorem transposes_iff_odd : (slice [5] [⟨0, 5, 2⟩]).Transposes Int :=
  (transposes_iff (by decide)).mpr (by decide)

/-- Every other element of four: the cotangent has three. -/
theorem not_transposes_even : (slice [4] [⟨0, 4, 2⟩]).Ok ∧ ¬ (slice [4] [⟨0, 4, 2⟩]).Transposes Int := by
  refine ⟨by decide, fun h => ?_⟩
  have haligned := (slice_transposes_iff (by decide)).mp h
  exact absurd haligned (by decide)

end DataMovement

end EnzymeJax
