import EnzymeJax.HLOOpt.DUSDUSConcat
import EnzymeJax.Library.Sourced

/-!
# Updates at constant start indices

`DUSToPadComm` adds the padded update to the operand, masked where the update goes. `DUSOfConcatSlicesOptimize`
writes the slices that make up an update one by one, but for those that stay where they are. Both read the
start indices as they are written, though an update is clamped.
-/

namespace EnzymeJax.ConstantStarts

open Tensor DUSDUSConcat Option Function
open List hiding zipWith allSome

section

variable {R : Type*} [CommRing R]

def updatePads (operandShape updateShape constantStartIndices : List Nat) : List PadDim :=
  List.zipWith3 (fun n m start : Nat => ⟨start, (n : Int) - m - start, 0⟩) operandShape updateShape
    constantStartIndices

def DUSToPadComm (isZeroOperand isZeroUpdate : Bool) (constantStartIndices : List Nat) (operand update : Tensor R) :
    Option (Tensor R) :=
  let pads := updatePads operand.shape update.shape constantStartIndices
  let updatePad := pad pads 0 update
  let maskedOperand := (pad pads 1 (splat update.shape 0)).bind (zipWith (· * ·) operand)
  match isZeroOperand, isZeroUpdate with
  | false, false => maskedOperand.bind fun masked => updatePad.bind (zipWith (· + ·) masked)
  | false, true => maskedOperand
  | true, false => updatePad
  | true, true => some (splat operand.shape 0)

/-- The rewritten op gives the update, for all operands and updates that are zero where they are known to be. -/
def PadExact (R : Type*) [CommRing R] (isZeroOperand isZeroUpdate : Bool) (shape sizes starts : List Nat) : Prop :=
  ∀ x u : Tensor R, x.shape = shape → u.shape = sizes → (isZeroOperand = true → ∀ idx ∈ indices shape, x.get idx = 0) →
    (isZeroUpdate = true → ∀ idx ∈ indices sizes, u.get idx = 0) →
      ∃ y z, dynamicUpdateSlice (starts.map Int.ofNat) u x = some y ∧
        DUSToPadComm isZeroOperand isZeroUpdate starts x u = some z ∧ Same z y

theorem getD_ofNat (starts : List Nat) (d : Nat) : (starts.map Int.ofNat).getD d 0 = coord starts d :=
  List.getD_map _ _ Int.ofNat

/-! ### Updates by pads -/

variable {shape sizes starts : List Nat} {x u : Tensor R}

theorem updatePads_spec (hsizes : sizes.length = shape.length) (hstarts : starts.length = shape.length) :
    Forall₂ PadDim.Ok (updatePads shape sizes starts) sizes ∧
      List.zipWith (fun d dim => (d.size dim).toNat) (updatePads shape sizes starts) sizes = shape ∧
      ∀ idx, zipWith3 (fun (d : PadDim) n (q : Nat) => d.source n q) (updatePads shape sizes starts) sizes idx =
        zipWith3 (fun start size i => if start ≤ i ∧ i - start < size then some (i - start) else none)
          starts sizes idx := by
  induction shape generalizing sizes starts with
  | nil =>
    obtain rfl := length_eq_zero_iff.mp hsizes
    obtain rfl := length_eq_zero_iff.mp hstarts
    exact ⟨.nil, rfl, fun _ => rfl⟩
  | cons n shape ih =>
    obtain ⟨size, sizes, rfl⟩ := exists_cons_of_length_eq_add_one hsizes
    obtain ⟨start, starts, rfl⟩ := exists_cons_of_length_eq_add_one hstarts
    obtain ⟨hok, hshape, hsrc⟩ := ih (add_right_cancel hsizes) (add_right_cancel hstarts)
    have hsize : PadDim.size ⟨start, (n : Int) - size - start, 0⟩ size = n := by
      rw [PadDim.size_of_interior rfl]
      dsimp only
      omega
    refine ⟨.cons ⟨Int.le_refl 0, hsize.symm ▸ Int.natCast_nonneg n⟩ hok,
      congrArg₂ _ (congrArg Int.toNat hsize) hshape, fun idx => ?_⟩
    cases idx with
    | nil => rfl
    | cons i idx =>
      exact congrArg₂ _ (PadDim.source_low start 0 size i) (hsrc idx)

omit [CommRing R] in
theorem pad_updatePads (hsizes : u.shape.length = shape.length) (hstarts : starts.length = shape.length) (v : R) :
    ∃ y, pad (updatePads shape u.shape starts) v u = some y ∧ y.shape = shape ∧
      ∀ idx, y.get idx = ((regionIndex starts u.shape idx).map u.get).getD v := by
  obtain ⟨hok, hshape, hsrc⟩ := updatePads_spec hsizes hstarts
  exact ⟨_, if_pos hok, hshape, fun idx => by rw [regionIndex, ← hsrc]⟩

theorem exists_DUSToPadComm {isZeroOperand isZeroUpdate : Bool} (hsizes : u.shape.length = x.shape.length)
    (hstarts : starts.length = x.shape.length) (hx : isZeroOperand = true → ∀ idx ∈ indices x.shape, x.get idx = 0)
    (hu : isZeroUpdate = true → ∀ idx ∈ indices u.shape, u.get idx = 0) :
    ∃ z, DUSToPadComm isZeroOperand isZeroUpdate starts x u = some z ∧ z.shape = x.shape ∧
      ∀ idx ∈ indices x.shape, z.get idx = ((regionIndex starts u.shape idx).map u.get).getD (x.get idx) := by
  obtain ⟨p, hp, hpshape, hpget⟩ := pad_updatePads hsizes hstarts 0
  obtain ⟨m, hm, hmshape, hmget⟩ := pad_updatePads (u := splat u.shape 0) hsizes hstarts (1 : R)
  have hmasked : zipWith (· * ·) x m = some _ := if_pos hmshape.symm
  have hm : pad (updatePads x.shape u.shape starts) 1 (splat u.shape 0) = some m := hm
  have hzero : isZeroUpdate = true → ∀ idx ∈ indices x.shape, ∀ j, regionIndex starts u.shape idx = some j →
      u.get j = 0 := fun hflag idx hidx j hj =>
    hu hflag j (regionIndex_mem (hstarts.trans (length_of_mem_indices hidx).symm)
      (hsizes.trans (length_of_mem_indices hidx).symm) hj)
  have hmget : ∀ idx, m.get idx = ((regionIndex starts u.shape idx).map fun _ => 0).getD 1 := hmget
  simp only [DUSToPadComm, hp, hm, bind_some, hmasked]
  cases isZeroOperand with
  | false =>
    cases isZeroUpdate with
    | false =>
      refine ⟨_, if_pos hpshape.symm, rfl, fun idx _ => ?_⟩
      change x.get idx * m.get idx + p.get idx = _
      rw [hmget, hpget]
      cases regionIndex starts u.shape idx <;> simp
    | true =>
      refine ⟨_, rfl, rfl, fun idx hidx => ?_⟩
      change x.get idx * m.get idx = _
      have hzero := hzero rfl idx hidx
      rw [hmget]
      cases hj : regionIndex starts u.shape idx with
      | none => simp
      | some j => simp [hzero j hj]
  | true =>
    have hx := hx rfl
    cases isZeroUpdate with
    | false =>
      refine ⟨p, rfl, hpshape, fun idx hidx => ?_⟩
      rw [hpget, hx idx hidx]
    | true =>
      refine ⟨_, rfl, rfl, fun idx hidx => ?_⟩
      have hzero := hzero rfl idx hidx
      cases hj : regionIndex starts u.shape idx with
      | none => exact (hx idx hidx).symm
      | some j => exact (hzero j hj).symm

variable {isZeroOperand isZeroUpdate : Bool}

theorem padExact_of_fits (hok : DynamicSliceOk shape sizes starts.length)
    (hfits : isZeroOperand = true ∧ isZeroUpdate = true ∨ 0 ∈ sizes ∨
      ∀ d < shape.length, coord starts d + coord sizes d ≤ coord shape d) :
    PadExact R isZeroOperand isZeroUpdate shape sizes starts := by
  rintro x u rfl rfl hx hu
  have hsizes := hok.2.length_eq
  obtain ⟨z, hz, hshape, hget⟩ := exists_DUSToPadComm hsizes hok.1 hx hu
  have hy : dynamicUpdateSlice (starts.map Int.ofNat) u x = some _ := if_pos (by rwa [length_map])
  refine ⟨_, z, hy, hz, hshape, fun idx hidx => ?_⟩
  rw [hshape] at hidx
  have hlen := length_of_mem_indices hidx
  have hclamped := length_clampStarts ((length_map Int.ofNat).trans hok.1) hsizes
  have hmem : ∀ ss : List Nat, ss.length = x.shape.length → ∀ j, regionIndex ss u.shape idx = some j →
      j ∈ indices u.shape := fun ss hss j =>
    regionIndex_mem (hss.trans hlen.symm) (hsizes.trans hlen.symm)
  rw [hget idx hidx]
  obtain ⟨hzx, hzu⟩ | hempty | hfit := hfits
  · have hzero : ∀ ss : List Nat, ss.length = x.shape.length →
        ((regionIndex ss u.shape idx).map u.get).getD (x.get idx) = 0 := fun ss hss => by
      cases hj : regionIndex ss u.shape idx with
      | none => exact hx hzx idx hidx
      | some j => exact hu hzu j (hmem ss hss j hj)
    exact (hzero starts hok.1).trans (hzero _ hclamped).symm
  · have hnone : ∀ ss : List Nat, ss.length = x.shape.length → regionIndex ss u.shape idx = none := fun ss hss => by
      cases hj : regionIndex ss u.shape idx with
      | none => rfl
      | some j => exact absurd (pos_of_mem_indices (hmem ss hss j hj) 0 hempty) (lt_irrefl 0)
    rw [hnone starts hok.1]
    exact (congrArg (fun o => (Option.map u.get o).getD (x.get idx)) (hnone _ hclamped)).symm
  · dsimp only
    rw [clampStarts_eq hok.1 hsizes hfit]

theorem fits_of_padExact [Nontrivial R] (hok : DynamicSliceOk shape sizes starts.length)
    (h : PadExact R isZeroOperand isZeroUpdate shape sizes starts) :
    isZeroOperand = true ∧ isZeroUpdate = true ∨ 0 ∈ sizes ∨
      ∀ d < shape.length, coord starts d + coord sizes d ≤ coord shape d := by
  by_contra hnot
  obtain ⟨hflags, hnot⟩ := not_or.mp hnot
  obtain ⟨hpos, hnot⟩ := not_or.mp hnot
  push Not at hnot
  obtain ⟨d, hd, hlt⟩ := hnot
  obtain ⟨a, b, ha, hb, hab⟩ : ∃ a b : R, (isZeroOperand = true → a = 0) ∧ (isZeroUpdate = true → b = 0) ∧ b ≠ a := by
    cases isZeroUpdate with
    | false => exact ⟨0, 1, fun _ => rfl, nofun, one_ne_zero⟩
    | true => exact ⟨1, 0, fun hx => absurd ⟨hx, rfl⟩ hflags, fun _ => rfl, zero_ne_one⟩
  have hx := fun hflag idx (_ : idx ∈ indices shape) => ha hflag
  have hu := fun hflag idx (_ : idx ∈ indices sizes) => hb hflag
  obtain ⟨y, z, hy, hz, hsame⟩ := h (splat shape a) (splat sizes b) rfl rfl hx hu
  obtain ⟨z', hz', hshape, hget⟩ := exists_DUSToPadComm (x := splat shape a) (u := splat sizes b)
    hok.2.length_eq hok.1 hx hu
  cases hz.symm.trans hz'
  obtain ⟨hmem, idx, hyget⟩ := get_of_updated hpos hy
  have hmem : zipWith3 clampStart shape sizes (starts.map Int.ofNat) ∈ indices shape := hmem
  have hout : ¬InRegion starts sizes (zipWith3 clampStart shape sizes (starts.map Int.ofNat)) := by
    intro hin
    have hle := (hin d (by rwa [length_of_mem_indices hmem])).1
    have hsize := coord_le_of_forall₂ hok.2 d
    rw [coord_clampStarts (by rw [length_map, hok.1]) hok.2.length_eq hd, getD_ofNat, clampStart] at hle
    omega
  have hlen := length_of_mem_indices hmem
  have hat := (hget _ hmem).symm.trans ((hsame.get_eq _ (by rwa [hshape])).trans hyget)
  rw [show (splat sizes b).shape = sizes from rfl, regionIndex_of_not_inRegion (hok.1.trans hlen.symm)
    (hok.2.length_eq.trans hlen.symm) hout] at hat
  exact hab hat.symm

end

/-! ### Updates made of slices of the operand -/

section

variable {α : Type*} (concatDim : Nat) (dusStarts : List Nat)

def isSelfUpdate (offset : Nat) (ds : List SliceDim) : Bool :=
  (List.range dusStarts.length).all fun i =>
    (sliceDim ds i).start = coord dusStarts i + if i = concatDim then offset else 0

def selfUpdates : Nat → List (List SliceDim) → List Bool
  | _, [] => []
  | offset, ds :: slices =>
    isSelfUpdate concatDim dusStarts offset ds :: selfUpdates (offset + (sliceDim ds concatDim).size) slices

/-- The updates from `offset` on, in the order of the slices. A new start index is a constant of the index type. -/
def newUpdates (type : IntType) (operand : Tensor α) : Nat → Tensor α → List (List SliceDim) → Option (Tensor α)
  | _, current, [] => some current
  | offset, current, ds :: slices => do
    let arg ← slice ds operand
    let newDus ← if isSelfUpdate concatDim dusStarts offset ds then some current else
      dynamicUpdateSlice ((dusStarts.map Int.ofNat).set concatDim (makeAttr type (coord dusStarts concatDim + offset)))
        arg current
    newUpdates type operand (offset + (sliceDim ds concatDim).size) newDus slices

def DUSOfConcatSlicesOptimize (type : IntType) (slices : List (List SliceDim)) (operand : Tensor α) :
    Option (Tensor α) :=
  if (∀ ds ∈ slices, ∀ d ∈ ds, d.stride = 1) ∧ true ∈ selfUpdates concatDim dusStarts 0 slices then
    newUpdates concatDim dusStarts type operand 0 operand slices
  else none

def original (slices : List (List SliceDim)) (operand : Tensor α) : Option (Tensor α) := do
  let args ← allSome (slices.map (slice · operand))
  let update ← concatenate concatDim args
  dynamicUpdateSlice (dusStarts.map Int.ofNat) update operand

/-- Every start index of a new update is a constant of the type. -/
def ConstantsFit (type : IntType) : Nat → List (List SliceDim) → Prop
  | _, [] => True
  | offset, ds :: slices =>
    (isSelfUpdate concatDim dusStarts offset ds = false →
      makeAttr type (coord dusStarts concatDim + offset) = coord dusStarts concatDim + offset) ∧
    ConstantsFit type (offset + (sliceDim ds concatDim).size) slices

end

section

variable {α : Type*} {d k : Nat} {starts : List Nat} {s t c : Nat → Nat} {type : IntType} {ds : List SliceDim}
  {slices : List (List SliceDim)} {x u p y z : Tensor α} {pre ps : List (Tensor α)}

/-- The pieces are one after another in the box, from where `s` is on. -/
structure Written (d : Nat) (s t : Nat → Nat) (x : Tensor α) (ps : List (Tensor α)) (y : Tensor α) : Prop where
  shape_eq : y.shape = x.shape
  read_in : ∀ c, Within x.shape c → InBox d x.shape.length s t c → s d ≤ c d →
    y.read c = (pieceAt d ps fun e => c e - s e).getD (x.read c)
  read_out : ∀ c, Within x.shape c → ¬(InBox d x.shape.length s t c ∧ s d ≤ c d) → y.read c = x.read c

theorem pieceAt_of_le (ps : List (Tensor α)) (h : total d ps ≤ c d) : pieceAt d ps c = none := by
  induction ps generalizing c with
  | nil => rfl
  | cons p ps ih =>
    rw [total_cons] at h
    rw [pieceAt, if_neg (by omega), ih (by rw [update_self]; omega)]

theorem pieceAt_snoc : pieceAt d (pre ++ [p]) c =
    if total d pre ≤ c d ∧ c d < total d pre + coord p.shape d then some (p.read (update c d (c d - total d pre)))
    else pieceAt d pre c := by
  rw [pieceAt_append, pieceAt, pieceAt, update_self]
  by_cases hlow : c d < total d pre
  · rw [if_pos hlow, if_neg (by omega)]
  · rw [if_neg hlow, pieceAt_of_le pre (by omega)]
    exact if_congr (by omega) rfl rfl

namespace Written

theorem update (hd : d < x.shape.length) (hy : Written d s t x pre y)
    (hcoord : ∀ e < x.shape.length, coord p.shape e = if e = d then coord p.shape d else t e) {ss : List Int}
    (hstart : ∀ e < x.shape.length, updateStart x.shape p.shape ss e = if e = d then s d + total d pre else s e)
    (hz : dynamicUpdateSlice ss p y = some z) : Written d s t x (pre ++ [p]) z := by
  refine ⟨(read_dynamicUpdateSlice hz).2.1.trans hy.shape_eq, fun c hc hbox hle => ?_, fun c hc hnot => ?_⟩
  · obtain ⟨hin, hout⟩ := read_update hd hy.shape_eq hcoord hstart hz hc
    rw [pieceAt_snoc]
    split
    · rw [hin hbox (by omega), getD_some]
      refine read_congr p fun e _ => ?_
      by_cases hed : e = d
      · rw [hed, update_self, if_pos rfl, Nat.sub_sub]
      · rw [update_of_ne hed, if_neg hed]
    · rw [hout fun h => by omega, hy.read_in c hc hbox hle]
  · rw [(read_update hd hy.shape_eq hcoord hstart hz hc).2 fun h => hnot ⟨h.1, by omega⟩, hy.read_out c hc hnot]

theorem self (hy : Written d s t x pre y) (hp : slice ds x = some p)
    (hstride : ∀ e < x.shape.length, (sliceDim ds e).stride = 1)
    (hself : ∀ e < x.shape.length, (sliceDim ds e).start = ((if e = d then s d + total d pre else s e : Nat) : Int))
    (hcoord : ∀ e < x.shape.length, e ≠ d → coord p.shape e = t e) : Written d s t x (pre ++ [p]) y := by
  refine ⟨hy.shape_eq, fun c hc hbox hle => ?_, hy.read_out⟩
  rw [hy.read_in c hc hbox hle, pieceAt_snoc]
  split
  · obtain ⟨hlen, -, -, hread⟩ := read_slice hp
    rw [pieceAt_of_le pre (by omega), getD_none, getD_some, hread]
    · refine read_congr x fun e he => ?_
      rw [SliceDim.source, hstride e he, hself e he]
      by_cases hed : e = d
      · rw [hed, update_self, if_pos rfl]
        omega
      · have hat := hbox e he hed
        rw [update_of_ne hed, if_neg hed]
        omega
    · intro e he
      rw [length_slice hp, hlen] at he
      by_cases hed : e = d
      · rw [hed, update_self]
        omega
      · have hat := hbox e he hed
        rw [update_of_ne hed, hcoord e he hed]
        omega
  · rfl

theorem same (hy : Written d s t x ps y) (hz : Written d s t x ps z) : Same y z := by
  refine same_of_read (hy.shape_eq.trans hz.shape_eq.symm) fun c hc => ?_
  rw [hy.shape_eq] at hc
  by_cases hin : InBox d x.shape.length s t c ∧ s d ≤ c d
  · rw [hy.read_in c hc hin.1 hin.2, hz.read_in c hc hin.1 hin.2]
  · rw [hy.read_out c hc hin, hz.read_out c hc hin]

theorem of_concatenate (hu : concatenate d ps = some u) (hrank : u.shape.length = x.shape.length)
    (ht : ∀ e < x.shape.length, e ≠ d → coord u.shape e = t e) (hy : Written d s t x [u] y) :
    Written d s t x ps y := by
  refine ⟨hy.shape_eq, fun c hc hbox hle => ?_, hy.read_out⟩
  rw [hy.read_in c hc hbox hle, pieceAt, pieceAt, coord_concatenate hu]
  split
  · rw [← read_concatenate hu]
    intro e he
    by_cases hed : e = d
    · rwa [hed, coord_concatenate hu]
    · have hat := hbox e (hrank ▸ he) hed
      rw [ht e (hrank ▸ he) hed]
      beta_reduce
      omega
  · rw [pieceAt_of_le ps (by omega)]

theorem newUpdates (hd : d < x.shape.length) (hstarts : starts.length = x.shape.length)
    (hps : Forall₂ (fun ds p => slice ds x = some p) slices ps) (hstride : ∀ ds ∈ slices, ∀ e ∈ ds, e.stride = 1)
    (hcoord : ∀ p ∈ ps, ∀ e < x.shape.length, e ≠ d → coord p.shape e = t e)
    (hs : ∀ e < x.shape.length, s e = if e = d then coord starts d else clampStart (coord x.shape e) (t e) (coord starts e))
    (hfit : coord starts d + (total d pre + total d ps) ≤ coord x.shape d)
    (hconst : ConstantsFit d starts type (total d pre) slices) (hy : Written d s t x pre y) :
    ∃ z, ConstantStarts.newUpdates d starts type x (total d pre) y slices = some z ∧ Written d s t x (pre ++ ps) z := by
  induction hps generalizing pre y with
  | nil => exact ⟨y, rfl, by rwa [append_nil]⟩
  | cons hp _ ih =>
    rename_i ds p slices ps hps
    obtain ⟨hlen, -, hok, -⟩ := read_slice hp
    rw [hlen] at hok
    have hsd := hs d hd
    rw [if_pos rfl] at hsd
    have htotal : total d (pre ++ [p]) = total d pre + (sliceDim ds d).size := by
      rw [total_append, total_cons, total_nil, coord_slice hp (hlen ▸ hd)]
      rfl
    have hpcoord := hcoord p mem_cons_self
    rw [total_cons] at hfit
    have hone : ∀ e < x.shape.length, (sliceDim ds e).stride = 1 := fun e he => by
      rw [sliceDim_eq_getElem (hlen ▸ he)]
      exact hstride ds mem_cons_self _ (getElem_mem _)
    have hsize : ∀ e < x.shape.length, coord p.shape e = ((sliceDim ds e).limit - (sliceDim ds e).start).toNat :=
      fun e he => by rw [coord_slice hp (hlen ▸ he), SliceDim.size_of_unit (hone e he)]
    obtain ⟨y', hy', hwritten⟩ : ∃ y', ConstantStarts.newUpdates d starts type x (total d pre) y (ds :: slices) =
        ConstantStarts.newUpdates d starts type x (total d (pre ++ [p])) y' slices ∧
          Written d s t x (pre ++ [p]) y' := by
      rw [ConstantStarts.newUpdates, hp, htotal, bind_eq_bind, bind_some]
      cases hself : isSelfUpdate d starts (total d pre) ds with
      | true =>
        have hat : ∀ e < x.shape.length, (sliceDim ds e).start = coord starts e + if e = d then total d pre else 0 :=
          fun e he => of_decide_eq_true (all_eq_true.mp hself e (mem_range.mpr (hstarts ▸ he)))
        refine ⟨y, rfl, hy.self hp hone (fun e he => ?_) hpcoord⟩
        rw [hat e he, hs e he]
        by_cases hed : e = d
        · rw [if_pos hed, if_pos hed, hsd, hed]
          rfl
        · obtain ⟨-, hle, hlimit, -⟩ := hok e he
          have hsize := (hpcoord e he hed).symm.trans (hsize e he)
          have hstart := hat e he
          rw [if_neg hed] at hstart
          rw [if_neg hed, if_neg hed, if_neg hed, clampStart_eq _ (by omega)]
          exact Int.add_zero _
      | false =>
        have hrank := (length_slice hp).trans hlen
        have hle : ∀ e < x.shape.length, coord p.shape e ≤ coord x.shape e := fun e he => by
          have hat := hsize e he
          obtain ⟨hstart, -, hlimit, -⟩ := hok e he
          omega
        have hss : d < (starts.map Int.ofNat).length := by rwa [length_map, hstarts]
        have hds := (dynamicSliceOk_set (a := (coord starts d + total d pre : Int)) hd hrank
          ((length_map Int.ofNat).trans hstarts) fun e he _ => hle e he).mpr (hle d hd)
        rw [set_coord_self (hrank ▸ hd), ← hy.shape_eq] at hds
        have hz : dynamicUpdateSlice _ p y = some _ := if_pos hds
        refine ⟨_, ?_, hy.update hd (fun e he => ?_) (fun e he => ?_) hz⟩
        · rw [hconst.1 hself]
          exact congrArg (Option.bind · _) hz
        · split
          · subst e
            rfl
          · exact hpcoord e he ‹_›
        · rw [updateStart, getD_set hss, getD_ofNat]
          by_cases hed : e = d
          · rw [if_pos hed, if_pos hed, hed, hsd]
            exact clampStart_eq (coord starts d + total d pre) (by omega)
          · rw [if_neg hed, if_neg hed, hs e he, if_neg hed, hpcoord e he hed]
    obtain ⟨z, hz, hzwritten⟩ := ih (fun ds' hds' => hstride ds' (mem_cons_of_mem _ hds'))
      (fun p' hp' => hcoord p' (mem_cons_of_mem _ hp')) (by rw [total_append, total_cons, total_nil]; omega)
      (htotal ▸ hconst.2) hwritten
    exact ⟨z, hy'.trans hz, by rwa [append_assoc] at hzwritten⟩

end Written

theorem total_of_slices (hd : d < x.shape.length) (hps : Forall₂ (fun ds p => slice ds x = some p) slices ps) :
    total d ps = (slices.map fun ds => (sliceDim ds d).size).sum := by
  induction hps with
  | nil => rfl
  | cons hp _ ih => rw [total_cons, ih, coord_slice hp ((read_slice hp).1 ▸ hd), map_cons, sum_cons]

theorem concatSlices_exact (hfires : (∀ ds ∈ slices, ∀ e ∈ ds, e.stride = 1) ∧ true ∈ selfUpdates d starts 0 slices)
    (hy : original d starts slices x = some y)
    (hfit : coord starts d + (slices.map fun ds => (sliceDim ds d).size).sum ≤ coord x.shape d)
    (hconst : ConstantsFit d starts type 0 slices) :
    ∃ z, DUSOfConcatSlicesOptimize d starts type slices x = some z ∧ Same z y := by
  obtain ⟨ps, hps, hy⟩ := bind_eq_some_iff.mp hy
  obtain ⟨u, hu, hy⟩ := bind_eq_some_iff.mp hy
  rw [allSome_map_iff] at hps
  obtain ⟨hd, -, hfits, -⟩ := pieces_of_concatenate hu
  obtain ⟨hok, -, -⟩ := read_dynamicUpdateSlice hy
  have hrank := hok.2.length_eq
  rw [hrank] at hd
  rw [← total_of_slices hd hps] at hfit
  have hempty : Written d (updateStart x.shape u.shape (starts.map Int.ofNat)) (coord u.shape) x [] x :=
    ⟨rfl, fun _ _ _ _ => rfl, fun _ _ _ => rfl⟩
  have hwritten := (hempty.update hd (fun e _ => by split <;> simp_all) (fun e _ => by split <;> simp_all) hy).of_concatenate
    hu hrank fun _ _ _ => rfl
  obtain ⟨z, hz, hzwritten⟩ := hempty.newUpdates hd ((length_map _).symm.trans hok.1) hps hfires.1
    (fun p hp e _ hed => by simpa only [coord_set_of_ne hed] using congrArg (coord · e) (hfits p hp))
    (fun e _ => by
      rw [updateStart, getD_ofNat]
      split
      · subst e
        exact clampStart_eq _ (coord_concatenate hu ▸ hfit)
      · rfl) (by simpa using hfit) hconst
  exact ⟨z, (if_pos hfires).trans hz, hzwritten.same hwritten⟩

end

/-- Updates by pads are exact if and only if nothing is clamped or added. Updates by slices are exact if they are
not clamped along the dimension that they are concatenated in. -/
theorem updates_at_constants_exact (R α : Type*) [CommRing R] [Nontrivial R] :
    (∀ isZeroOperand isZeroUpdate shape sizes starts, DynamicSliceOk shape sizes starts.length →
      (PadExact R isZeroOperand isZeroUpdate shape sizes starts ↔ isZeroOperand = true ∧ isZeroUpdate = true ∨
        0 ∈ sizes ∨ ∀ d < shape.length, coord starts d + coord sizes d ≤ coord shape d)) ∧
    ∀ (d : Nat) (starts : List Nat) (type : IntType) (slices : List (List SliceDim)) (x y : Tensor α),
      (∀ ds ∈ slices, ∀ e ∈ ds, e.stride = 1) ∧ true ∈ selfUpdates d starts 0 slices →
      original d starts slices x = some y →
      coord starts d + (slices.map fun ds => (sliceDim ds d).size).sum ≤ coord x.shape d →
      ConstantsFit d starts type 0 slices → ∃ z, DUSOfConcatSlicesOptimize d starts type slices x = some z ∧ Same z y :=
  ⟨fun _ _ _ _ _ hok => ⟨fits_of_padExact hok, padExact_of_fits hok⟩,
    fun _ _ _ _ _ _ hfires hy hfit hconst => concatSlices_exact hfires hy hfit hconst⟩

/-- The second element stays, and the last one is written after it. -/
theorem updates_at_constants_exact_four : PadExact ℤ false false [3] [2] [1] ∧
    ∃ y, original 0 [1] [[⟨1, 2, 1⟩], [⟨3, 4, 1⟩]] (iota 4) = some y ∧
      ∃ z, DUSOfConcatSlicesOptimize 0 [1] ⟨8, false⟩ [[⟨1, 2, 1⟩], [⟨3, 4, 1⟩]] (iota 4) = some z ∧ Same z y := by
  obtain ⟨hpads, hslices⟩ := updates_at_constants_exact ℤ ℤ
  exact ⟨(hpads false false [3] [2] [1] (by decide)).mpr (.inr (.inr (by decide))), _, rfl,
    hslices 0 [1] _ _ _ _ (by decide) rfl (by decide) ⟨fun _ => by decide, fun _ => by decide, trivial⟩⟩

/-- An update of two elements from the last of three on is one from the second on. -/
theorem not_padExact_clamped : ¬PadExact ℤ false false [3] [2] [2] := fun h =>
  absurd (fits_of_padExact (by decide) h) (by decide)

end EnzymeJax.ConstantStarts
