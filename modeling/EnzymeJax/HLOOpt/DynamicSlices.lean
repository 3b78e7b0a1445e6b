import EnzymeJax.Library.Gather
import EnzymeJax.Library.IntType

/-!
# Fused and static dynamic slices

A slice of a `dynamic_slice`, or a `dynamic_slice` of a slice, becomes one `dynamic_slice` at the sums of the starts,
which are clamped once instead of twice. A `dynamic_slice` at constants becomes a slice, or its operand.
-/

namespace EnzymeJax.DynamicSlices

open Tensor Option
open List hiding allSome

/-- A start index: a scalar of an integer type, and whether it is a constant. -/
structure Start where
  type : IntType
  value : Int
  isConstant : Bool

/-- The value is one of the type. -/
def Start.Valid (s : Start) : Prop := s.type.wrap s.value = s.value

instance (s : Start) : Decidable s.Valid := inferInstanceAs (Decidable (_ = _))

/-- The value of a constant, read as a signed integer. -/
def Start.getSExtValue (s : Start) : Option Int :=
  if s.isConstant then some (s.value.bmod (2 ^ s.type.width)) else none

/-- The value of a constant of the type that is made from an integer. -/
def makeAttr (type : IntType) (n : Int) : Int := type.wrap n

/-! ### Start indices -/

def promoteToLargestBitWidth (values : List Start) : List Start :=
  let maxBitWidth := (values.map (·.type.width)).foldr max 0
  values.map fun v =>
    if v.type.width = maxBitWidth then v
    else ⟨⟨maxBitWidth, false⟩, IntType.wrap ⟨maxBitWidth, false⟩ v.value, false⟩

def add (a b : Start) : Option Start :=
  if a.type = b.type then some ⟨a.type, a.type.wrap (a.value + b.value), false⟩ else none

def addStart (start : Option Start) (prev : Start) : Option Start :=
  match start with
  | some start =>
    match promoteToLargestBitWidth [start, prev] with
    | [a, b] => add a b
    | _ => none
  | none => some prev

def sliceSliceHelper (prevStarts : List Start) (startIndices : List (Option Start)) :
    Option (List Start) :=
  allSome (List.zipWith addStart startIndices prevStarts)

def SliceToDynamicSlice (ds : List SliceDim) : Option (List Start × List Nat) :=
  if ∀ d ∈ ds, d.stride = 1 then
    some (ds.map fun d => ⟨⟨32, false⟩, makeAttr ⟨32, false⟩ d.start, true⟩, ds.map fun d => (d.limit - d.start).toNat)
  else none

section

variable {α : Type}

/-- The fused op on the operand of `prev`. -/
def rewriteDynamicSliceDynamicSlice (starts : List Start) (sizes : List Nat) (prevStarts : List Start)
    (x : Tensor α) : Option (Tensor α) := do
  let startIndices ← sliceSliceHelper prevStarts (starts.map some)
  dynamicSlice (startIndices.map Start.value) sizes x

/-- A `dynamic_slice` or a `slice`. -/
inductive Slice
  | dynamic (starts : List Start) (sizes : List Nat)
  | static (ds : List SliceDim)

namespace Slice

def apply (x : Tensor α) : Slice → Option (Tensor α)
  | dynamic starts sizes => dynamicSlice (starts.map Start.value) sizes x
  | static ds => slice ds x

/-- The op as a `dynamic_slice`. -/
def toDynamic : Slice → Option (List Start × List Nat)
  | dynamic starts sizes => some (starts, sizes)
  | static ds => SliceToDynamicSlice ds

/-- What is sliced is a `dynamic_slice`, or it is a slice with strides of one. -/
def UnitStrides : Slice → Prop
  | dynamic _ _ => True
  | static ds => ∀ d ∈ ds, d.stride = 1

/-- The start indices are values of their types. -/
def Valid : Slice → Prop
  | dynamic starts _ => ∀ s ∈ starts, s.Valid
  | static _ => True

end Slice

def original (op prev : Slice) (x : Tensor α) : Option (Tensor α) := (prev.apply x).bind (op.apply ·)

/-- `DynamicSliceDynamicSlice`, `SliceDynamicSlice` and `DynamicSliceSlice`. -/
def fused (op prev : Slice) (x : Tensor α) : Option (Tensor α) := do
  let (starts, sizes) ← op.toDynamic
  let (prevStarts, _) ← prev.toDynamic
  rewriteDynamicSliceDynamicSlice starts sizes prevStarts x

/-! ### Slices at constants -/

def SliceOpCreate (ds : List SliceDim) (x : Tensor α) : Option (Tensor α) :=
  let sliceNeeded := (List.zip ds x.shape).any fun p =>
    decide (p.1.start ≠ 0 ∨ p.1.limit ≠ p.2 ∨ p.1.stride ≠ 1)
  if sliceNeeded then slice ds x else some x

/-- One dimension of the slice that is emitted, where nothing is clamped at the end of the operand. -/
def constantSlice (start : Start) (size dim : Nat) : Option SliceDim := do
  let constStart ← start.getSExtValue
  if constStart + size > dim then none else some ⟨constStart, constStart + size, 1⟩

def DynamicSliceOpCreate (starts : List Start) (sizes : List Nat) (x : Tensor α) : Option (Tensor α) :=
  match allSome (List.zipWith3 constantSlice starts sizes x.shape) with
  | some ds => SliceOpCreate ds x
  | none => dynamicSlice (starts.map Start.value) sizes x

/-- One dimension of the slice that a `dynamic_slice` in bounds is. -/
def staticSlice (start : Start) (size dim : Nat) : Option SliceDim := do
  let startv ← start.getSExtValue
  if startv < 0 then none
  else if startv + size > dim then none
  else some ⟨startv, startv + size, 1⟩

def DynamicSliceToStatic (starts : List Start) (sizes : List Nat) (x : Tensor α) :
    Option (Option (Tensor α)) :=
  (allSome (List.zipWith3 staticSlice starts sizes x.shape)).map (slice · x)

/-! ### Places -/

def Compatible (s t : IntType) : Prop :=
  s = t ∨ (s.width < t.width ∧ t.unsigned = false) ∨ (t.width < s.width ∧ s.unsigned = false)

instance (s t : IntType) : Decidable (Compatible s t) :=
  inferInstanceAs (Decidable (_ ∨ (_ ∧ _) ∨ (_ ∧ _)))

def sumStart (s t : Start) : Int :=
  (if s.type.width < t.type.width then t.type else s.type).wrap (s.value + t.value)

/-- A slice is asked to start where it is, or outside of the operand on the side where it is. -/
def AtPlace (dim size place : Nat) (start : Int) : Prop :=
  start = place ∨ (start ≤ 0 ∧ place = 0) ∨ (dim ≤ start + size ∧ place + size = dim)

namespace Slice

/-- The constants that a `slice` starts at are of type `i32`. -/
def starts : Slice → List Start
  | dynamic starts _ => starts
  | static ds => ds.map fun d => ⟨⟨32, false⟩, makeAttr ⟨32, false⟩ d.start, true⟩

def sizes : Slice → List Nat
  | dynamic _ sizes => sizes
  | static ds => ds.map fun d => (d.limit - d.start).toNat

/-- Where the slice is in a dimension of its operand. -/
def place (shape : List Nat) (d : Nat) : Slice → Nat
  | dynamic starts sizes => clampStart (coord shape d) (coord sizes d) ((starts.map Start.value).getD d 0)
  | static ds => (ds[d]?.map (·.start.toNat)).getD 0

end Slice

def FusionPreserves (α : Type) (op prev : Slice) (shape : List Nat) : Prop :=
  ∀ x y : Tensor α, x.shape = shape → original op prev x = some y → ∃ z, fused op prev x = some z ∧ Same z y

def CreationPreserves (α : Type) (starts : List Start) (sizes shape : List Nat) : Prop :=
  ∀ x y : Tensor α, x.shape = shape → dynamicSlice (starts.map Start.value) sizes x = some y →
    ∃ z, DynamicSliceOpCreate starts sizes x = some z ∧ Same z y

def ReplacementPreserves (α : Type) (starts : List Start) (sizes shape : List Nat) : Prop :=
  ∀ x y : Tensor α, x.shape = shape → dynamicSlice (starts.map Start.value) sizes x = some y →
    ∀ res, DynamicSliceToStatic starts sizes x = some res → ∃ z, res = some z ∧ Same z y

/-- The starts can be added, and unless the result is empty their sums place it where it is. -/
def FusesWhen (op prev : Slice) (shape : List Nat) : Prop :=
  (∀ p ∈ List.zip op.starts prev.starts, Compatible p.1.type p.2.type) ∧
    ((∃ d < shape.length, coord op.sizes d = 0) ∨ ∀ d s t, op.starts[d]? = some s →
      prev.starts[d]? = some t → AtPlace (coord shape d) (coord op.sizes d)
        (prev.place shape d + op.place prev.sizes d) (sumStart s t))

/-- A start that is past the operand, or that is not known, keeps the op dynamic. -/
def CreatesWhen (starts : List Start) (sizes shape : List Nat) : Prop :=
  (∀ d s, starts[d]? = some s → ∃ c : Int, s.getSExtValue = some c ∧ c + coord sizes d ≤ coord shape d) →
    ∀ s ∈ starts, ∀ c, s.getSExtValue = some c → 0 ≤ c

end

section

variable {s t : Start} {dim size place : Nat} {start : Int}

theorem clampStart_eq_iff (hfit : place + size ≤ dim) :
    clampStart dim size start = place ↔ AtPlace dim size place start := by
  rw [clampStart, AtPlace]
  omega

theorem makeAttr_valid (type : IntType) (n : Int) : type.wrap (makeAttr type n) = makeAttr type n := by
  rw [makeAttr, IntType.wrap, IntType.wrap]
  split
  · exact Int.emod_emod_of_dvd n (dvd_refl _)
  · exact Int.bmod_bmod

theorem addStart_of_compatible (hs : s.Valid) (ht : t.Valid) (h : Compatible s.type t.type) :
    ∃ r, addStart (some s) t = some r ∧ r.value = sumStart s t := by
  obtain ⟨⟨w, u⟩, sv, sc⟩ := s
  obtain ⟨⟨w', u'⟩, tv, tc⟩ := t
  rcases h with heq | ⟨hlt, hsigned⟩ | ⟨hlt, hsigned⟩
  · obtain ⟨rfl, rfl⟩ := IntType.mk.inj heq
    refine ⟨⟨⟨w, u⟩, IntType.wrap ⟨w, u⟩ (sv + tv), false⟩, ?_, ?_⟩
    · simp [addStart, promoteToLargestBitWidth, add]
    · simp [sumStart]
  · dsimp only at hlt hsigned
    subst hsigned
    have hwide : IntType.wrap ⟨w', false⟩ sv = sv := IntType.wrap_of_width_lt hs hlt
    refine ⟨⟨⟨w', false⟩, IntType.wrap ⟨w', false⟩ (sv + tv), false⟩, ?_, ?_⟩
    · simp [addStart, promoteToLargestBitWidth, add, hwide, max_eq_right hlt.le, hlt.ne]
    · simp [sumStart, hlt]
  · dsimp only at hlt hsigned
    subst hsigned
    have hwide : IntType.wrap ⟨w, false⟩ tv = tv := IntType.wrap_of_width_lt ht hlt
    refine ⟨⟨⟨w, false⟩, IntType.wrap ⟨w, false⟩ (sv + tv), false⟩, ?_, ?_⟩
    · simp [addStart, promoteToLargestBitWidth, add, hwide, max_eq_left hlt.le, hlt.ne]
    · simp [sumStart, hlt.not_gt]

theorem compatible_of_addStart {r : Start} (h : addStart (some s) t = some r) :
    Compatible s.type t.type := by
  obtain ⟨⟨w, u⟩, sv, sc⟩ := s
  obtain ⟨⟨w', u'⟩, tv, tc⟩ := t
  rw [Compatible]
  dsimp only
  rcases lt_trichotomy w w' with hlt | rfl | hlt
  · simp [addStart, promoteToLargestBitWidth, add, max_eq_right hlt.le, hlt.ne] at h
    exact .inr (.inl ⟨hlt, h.1⟩)
  · simp [addStart, promoteToLargestBitWidth, add] at h
    exact .inl (by rw [h.1])
  · simp [addStart, promoteToLargestBitWidth, add, max_eq_left hlt.le, hlt.ne] at h
    exact .inr (.inr ⟨hlt, h.1⟩)

theorem value_of_getSExtValue (hs : s.Valid) {c : Int} (hc : s.getSExtValue = some c) (hpos : 0 ≤ c) :
    s.value = c := by
  obtain ⟨⟨w, u⟩, v, isConstant⟩ := s
  rw [Start.getSExtValue] at hc
  split at hc
  · cases hc
    cases u with
    | false => exact hs.symm
    | true =>
      obtain ⟨hlow, hhigh⟩ := IntType.wrap_unsigned_eq_iff.mp hs
      dsimp only at hpos hlow hhigh ⊢
      rw [Int.bmod_def] at hpos ⊢
      have hmod : v % (2 ^ w : Nat) = v := Int.emod_eq_of_lt hlow (by exact_mod_cast hhigh)
      rw [hmod] at hpos ⊢
      split
      · rfl
      · rename_i hhalf
        rw [if_neg hhalf] at hpos
        push_cast at hpos
        omega
  · cases hc

end

/-! ### Fused slices -/

section

variable {α : Type} {op prev : Slice} {x y z : Tensor α} {sizes : List Nat}

theorem Slice.toDynamic_eq (hunit : op.UnitStrides) : op.toDynamic = some (op.starts, op.sizes) := by
  cases op with
  | dynamic starts sizes => rfl
  | static ds => exact if_pos hunit

theorem Slice.starts_valid (hvalid : op.Valid) : ∀ s ∈ op.starts, s.Valid := by
  cases op with
  | dynamic starts sizes => exact hvalid
  | static ds =>
    intro s hs
    obtain ⟨d, -, rfl⟩ := mem_map.mp hs
    exact makeAttr_valid _ _

theorem Slice.apply_of_shape (h : op.apply x = some y) (hz : z.shape = x.shape) :
    ∃ u, op.apply z = some u ∧ u.shape = y.shape := by
  cases op with
  | dynamic starts sizes =>
    obtain ⟨hok, hgathers⟩ := gathers_dynamicSlice h
    exact ⟨_, if_pos (hz.symm ▸ hok), hgathers.shape_eq.symm⟩
  | static ds =>
    obtain ⟨hok, hgathers⟩ := gathers_slice h
    exact ⟨_, if_pos (hz.symm ▸ hok), hgathers.shape_eq.symm⟩

theorem original_of_shape (h : original op prev x = some y) (hz : z.shape = x.shape) :
    ∃ u, original op prev z = some u := by
  obtain ⟨m, hm, hy⟩ := bind_eq_some_iff.mp h
  obtain ⟨m', hm', hshape⟩ := Slice.apply_of_shape hm hz
  obtain ⟨u, hu, -⟩ := Slice.apply_of_shape hy hshape
  exact ⟨u, bind_eq_some_iff.mpr ⟨m', hm', hu⟩⟩

theorem Slice.apply_eq (hunit : op.UnitStrides) (h : op.apply x = some y) :
    op.starts.length = x.shape.length ∧ op.sizes.length = x.shape.length ∧
      (∀ d < x.shape.length, op.place x.shape d + coord op.sizes d ≤ coord x.shape d) ∧
      Gathers op.sizes (fun d k => op.place x.shape d + k) x y := by
  cases op with
  | dynamic starts sizes =>
    obtain ⟨hok, hgathers⟩ := gathers_dynamicSlice h
    have hlen := hok.2.length_eq
    refine ⟨by rw [Slice.starts, ← hok.1, length_map], hlen, fun d hd => ?_, ?_⟩
    · refine clampStart_le ?_ _
      rw [coord_eq_getElem hd, coord_eq_getElem (hlen.symm ▸ hd)]
      exact (forall₂_iff_get.mp hok.2).2 d (hlen.symm ▸ hd) hd
    · refine hgathers.congr fun d hd k _ => ?_
      rw [coord_clampStarts hok.1 hlen (hlen ▸ hd)]
      rfl
  | static ds =>
    obtain ⟨hok, hgathers⟩ := gathers_slice h
    have hlen := hok.length_eq
    have hsizes : ds.map SliceDim.size = ds.map fun d => (d.limit - d.start).toNat := by
      refine map_congr_left fun d hd => ?_
      rw [SliceDim.size, hunit d hd, Int.ediv_one, Int.add_sub_cancel]
    rw [hsizes] at hgathers
    refine ⟨by rw [Slice.starts, length_map, hlen], by rw [Slice.sizes, length_map, hlen], fun d hd => ?_, ?_⟩
    · have hd' : d < ds.length := hlen.symm ▸ hd
      have hfit : ds[d].Ok x.shape[d] := (forall₂_iff_get.mp hok).2 d hd' hd
      obtain ⟨hstart, hle, hlimit, -⟩ := hfit
      rw [Slice.place, Slice.sizes, coord_map _ _ hd', coord_eq_getElem hd, getElem?_eq_getElem hd']
      change ds[d].start.toNat + _ ≤ _
      omega
    · refine hgathers.congr fun d hd k _ => ?_
      rw [length_map] at hd
      have hstart : 0 ≤ ds[d].start := ((forall₂_iff_get.mp hok).2 d hd (hlen ▸ hd)).1
      rw [sliceSource, Slice.place, getElem?_eq_getElem hd]
      change SliceDim.source ds[d] k = ds[d].start.toNat + k
      rw [SliceDim.source, hunit _ (getElem_mem hd), Int.mul_one, Int.toNat_add_nat hstart]

/-- The starts of the fused op are there if and only if the types are compatible. -/
theorem exists_sliceSliceHelper_iff (hop : op.Valid) (hprev : prev.Valid) :
    (∃ r, sliceSliceHelper prev.starts (op.starts.map some) = some r) ↔
      ∀ p ∈ zip op.starts prev.starts, Compatible p.1.type p.2.type := by
  rw [sliceSliceHelper, exists_allSome_iff, zipWith_map_left, ← map_uncurry_zip_eq_zipWith]
  constructor
  · intro h p hp
    obtain ⟨r, hr⟩ := h _ (mem_map_of_mem hp)
    exact compatible_of_addStart hr
  · intro h a ha
    obtain ⟨p, hp, rfl⟩ := mem_map.mp ha
    obtain ⟨hs, ht⟩ := of_mem_zip hp
    obtain ⟨r, hr, -⟩ := addStart_of_compatible (Slice.starts_valid hop _ hs)
      (Slice.starts_valid hprev _ ht) (h p hp)
    exact ⟨r, hr⟩

variable {r : List Start}

theorem sliceSliceHelper_value (hop : op.Valid) (hprev : prev.Valid) (hlen : op.starts.length = prev.starts.length)
    (hr : sliceSliceHelper prev.starts (op.starts.map some) = some r) :
    r.length = op.starts.length ∧ ∀ d s t, op.starts[d]? = some s → prev.starts[d]? = some t →
      (r.map Start.value).getD d 0 = sumStart s t := by
  have heq := allSome_eq_some_iff.mp hr
  have hrlength := congrArg length heq
  simp only [length_zipWith, length_map, hlen, min_self] at hrlength
  refine ⟨by rw [← hrlength, hlen], fun d s t hs ht => ?_⟩
  obtain ⟨hd, rfl⟩ := List.getElem?_eq_some_iff.mp hs
  obtain ⟨hd', rfl⟩ := List.getElem?_eq_some_iff.mp ht
  have hdr : d < r.length := hrlength ▸ hd'
  have hget : addStart (some op.starts[d]) prev.starts[d] = some r[d] := by
    have hget := congrArg (·[d]?) heq
    simpa [getElem?_zipWith, hd, hd', hdr] using hget
  obtain ⟨r', hr', hval⟩ := addStart_of_compatible (Slice.starts_valid hop _ (getElem_mem hd))
    (Slice.starts_valid hprev _ (getElem_mem hd')) (compatible_of_addStart hget)
  cases hget.symm.trans hr'
  rw [← hval]
  simp [hdr]

theorem original_eq (hop : op.UnitStrides) (hprev : prev.UnitStrides) (h : original op prev x = some y) :
    op.starts.length = x.shape.length ∧ prev.starts.length = x.shape.length ∧ op.sizes.length = x.shape.length ∧
      (∀ d < x.shape.length, prev.place x.shape d + op.place prev.sizes d + coord op.sizes d ≤ coord x.shape d) ∧
      Gathers op.sizes (fun d k => prev.place x.shape d + op.place prev.sizes d + k) x y := by
  obtain ⟨m, hm, hy⟩ := bind_eq_some_iff.mp h
  obtain ⟨hprevStarts, hprevSizes, hprevFit, hprevGathers⟩ := Slice.apply_eq hprev hm
  obtain ⟨hstarts, hsizes, hfit, hgathers⟩ := Slice.apply_eq hop hy
  rw [hprevGathers.shape_eq] at hstarts hsizes hfit hgathers
  refine ⟨hstarts.trans hprevSizes, hprevStarts, hsizes.trans hprevSizes, fun d hd => ?_, ?_⟩
  · have hinner := hfit d (hprevSizes.symm ▸ hd)
    have houter := hprevFit d hd
    omega
  · have hlt : ∀ d < op.sizes.length, ∀ k < coord op.sizes d, op.place prev.sizes d + k < coord prev.sizes d := by
      intro d hd k hk
      have hinner := hfit d (hsizes ▸ hd)
      omega
    refine (hprevGathers.trans hgathers hsizes hlt).congr fun d _ k _ => ?_
    rw [add_assoc]

theorem fused_eq (hop : op.UnitStrides) (hprev : prev.UnitStrides) (horiginal : original op prev x = some y)
    (hr : sliceSliceHelper prev.starts (op.starts.map some) = some r) (hlen : r.length = op.starts.length) :
    ∃ z, fused op prev x = some z ∧ Gathers op.sizes (fun d k =>
      clampStart (coord x.shape d) (coord op.sizes d) ((r.map Start.value).getD d 0) + k) x z := by
  obtain ⟨hstarts, -, hsizes, hfit, -⟩ := original_eq hop hprev horiginal
  have hok : DynamicSliceOk x.shape op.sizes (r.map Start.value).length := by
    refine ⟨by rw [length_map, hlen, hstarts], forall₂_iff_get.mpr ⟨hsizes, fun d hd hd' => ?_⟩⟩
    have hle := hfit d hd'
    rw [coord_eq_getElem hd, coord_eq_getElem hd'] at hle
    exact le_of_add_le_right hle
  have hfused : fused op prev x = some ⟨op.sizes, fun idx =>
      x.get (dynamicIndex x.shape op.sizes (r.map Start.value) idx)⟩ := by
    rw [fused, Slice.toDynamic_eq hop, Slice.toDynamic_eq hprev]
    simp only [bind_eq_bind, bind_some, rewriteDynamicSliceDynamicSlice, hr]
    exact if_pos hok
  refine ⟨_, hfused, ?_⟩
  refine (gathers_dynamicSlice (if_pos hok)).2.congr fun d hd k _ => ?_
  rw [coord_clampStarts hok.1 hsizes (hsizes ▸ hd)]

theorem fusionPreserves_iff_starts [Nontrivial α] (hop : op.UnitStrides) (hprev : prev.UnitStrides)
    (horiginal : original op prev x = some y)
    (hr : sliceSliceHelper prev.starts (op.starts.map some) = some r) (hlen : r.length = op.starts.length) :
    FusionPreserves α op prev x.shape ↔ (∃ d < x.shape.length, coord op.sizes d = 0) ∨
      ∀ d < x.shape.length, AtPlace (coord x.shape d) (coord op.sizes d)
        (prev.place x.shape d + op.place prev.sizes d) ((r.map Start.value).getD d 0) := by
  obtain ⟨-, -, hsizes, hfit, hgathers⟩ := original_eq hop hprev horiginal
  have hiff : (∀ u v w : Tensor α, u.shape = x.shape →
      Gathers op.sizes (fun d k => clampStart (coord x.shape d) (coord op.sizes d)
        ((r.map Start.value).getD d 0) + k) u v →
      Gathers op.sizes (fun d k => prev.place x.shape d + op.place prev.sizes d + k) u w → Same v w) ↔
      (∃ d < op.sizes.length, coord op.sizes d = 0) ∨
        ∀ d < op.sizes.length, ∀ k < coord op.sizes d, clampStart (coord x.shape d) (coord op.sizes d)
          ((r.map Start.value).getD d 0) + k = prev.place x.shape d + op.place prev.sizes d + k :=
    same_gathers_iff x.shape
  rw [hsizes] at hiff
  have hplaces : FusionPreserves α op prev x.shape ↔ (∃ d < x.shape.length, coord op.sizes d = 0) ∨
      ∀ d < x.shape.length, ∀ k < coord op.sizes d, clampStart (coord x.shape d) (coord op.sizes d)
        ((r.map Start.value).getD d 0) + k = prev.place x.shape d + op.place prev.sizes d + k := by
    rw [← hiff]
    constructor
    · intro h u v w hu hv hw
      obtain ⟨w', hw'⟩ := original_of_shape horiginal hu
      obtain ⟨-, -, -, -, hwgathers⟩ := original_eq hop hprev hw'
      obtain ⟨v', hv', hvgathers⟩ := fused_eq hop hprev hw' hr hlen
      obtain ⟨v'', hv'', hsame⟩ := h u w' hu hw'
      cases hv'.symm.trans hv''
      rw [hu] at hwgathers hvgathers
      exact ((hv.same hvgathers).trans hsame).trans (hwgathers.same hw)
    · intro h u v hu hv
      obtain ⟨-, -, -, -, hv'⟩ := original_eq hop hprev hv
      obtain ⟨w, hw, hw'⟩ := fused_eq hop hprev hv hr hlen
      rw [hu] at hv' hw'
      exact ⟨w, hw, h u w v hu hw' hv'⟩
  rw [hplaces]
  refine or_congr_right' fun hnonempty => forall₂_congr fun d hd => ?_
  simp only [not_exists, not_and] at hnonempty
  rw [← clampStart_eq_iff (hfit d hd)]
  constructor
  · intro h
    exact h 0 (pos_of_ne_zero (hnonempty d hd))
  · intro h k _
    rw [h]

theorem fusionPreserves_iff [Nontrivial α] (hop : op.Valid) (hprev : prev.Valid)
    (hunit : op.UnitStrides) (hunit' : prev.UnitStrides) (horiginal : original op prev x = some y) :
    FusionPreserves α op prev x.shape ↔ FusesWhen op prev x.shape := by
  obtain ⟨hstarts, hprevStarts, -, -, -⟩ := original_eq hunit hunit' horiginal
  rw [FusesWhen, ← exists_sliceSliceHelper_iff hop hprev]
  by_cases hr : ∃ r, sliceSliceHelper prev.starts (op.starts.map some) = some r
  · obtain ⟨r, hr⟩ := hr
    obtain ⟨hlen, hval⟩ :=
      sliceSliceHelper_value hop hprev (hstarts.trans hprevStarts.symm) hr
    rw [fusionPreserves_iff_starts hunit hunit' horiginal hr hlen]
    constructor
    · intro h
      refine ⟨⟨r, hr⟩, h.imp_right fun hplaces d s t hs ht => ?_⟩
      rw [← hval d s t hs ht]
      exact hplaces d (hstarts ▸ (List.getElem?_eq_some_iff.mp hs).1)
    · rintro ⟨-, h⟩
      refine h.imp_right fun hplaces d hd => ?_
      have hs := getElem?_eq_getElem (hstarts.symm ▸ hd : d < op.starts.length)
      have ht := getElem?_eq_getElem (hprevStarts.symm ▸ hd : d < prev.starts.length)
      rw [hval d _ _ hs ht]
      exact hplaces d _ _ hs ht
  · constructor
    · intro h
      obtain ⟨z, hz, -⟩ := h x y rfl horiginal
      rw [fused, Slice.toDynamic_eq hunit, Slice.toDynamic_eq hunit'] at hz
      simp only [bind_eq_bind, bind_some] at hz
      obtain ⟨r, hr', -⟩ := bind_eq_some_iff.mp hz
      exact absurd ⟨r, hr'⟩ hr
    · intro h
      exact absurd h.1 hr

end

/-! ### Slices in the place of a dynamic one -/

section

variable {α : Type} {starts : List Start} {sizes shape : List Nat} {x y : Tensor α}

variable {ds : List SliceDim} {size dim : Nat} {d : SliceDim} {z : Tensor α}

theorem slice_eq_of_inBounds (hlen : ds.length = sizes.length)
    (hds : ∀ d (hd : d < ds.length) s, starts[d]? = some s →
      ds[d] = ⟨s.value, s.value + coord sizes d, 1⟩ ∧ 0 ≤ s.value ∧ s.value + coord sizes d ≤ coord x.shape d)
    (hy : dynamicSlice (starts.map Start.value) sizes x = some y) : ∃ z, slice ds x = some z ∧ Same z y := by
  obtain ⟨hok, hgathers⟩ := gathers_dynamicSlice hy
  have hsizes := hok.2.length_eq
  have hstarts : starts.length = x.shape.length := by rw [← hok.1, length_map]
  have hget : ∀ d (hd : d < ds.length), ∃ s, starts[d]? = some s ∧
      ds[d] = ⟨s.value, s.value + coord sizes d, 1⟩ ∧ 0 ≤ s.value ∧ s.value + coord sizes d ≤ coord x.shape d := by
    intro d hd
    have hd' : d < starts.length := by omega
    exact ⟨_, getElem?_eq_getElem hd', hds d hd _ (getElem?_eq_getElem hd')⟩
  have hsliceOk : Forall₂ SliceDim.Ok ds x.shape := by
    refine forall₂_iff_get.mpr ⟨hlen.trans hsizes, fun d hd hd' => ?_⟩
    obtain ⟨s, -, heq, hlow, hhigh⟩ := hget d hd
    rw [coord_eq_getElem hd'] at hhigh
    rw [get_eq_getElem, get_eq_getElem]
    dsimp only
    rw [heq]
    exact ⟨hlow, by dsimp only; omega, hhigh, Int.one_pos⟩
  have hslice : slice ds x = some ⟨ds.map SliceDim.size, fun idx =>
      x.get (zipWith SliceDim.source ds idx)⟩ := if_pos hsliceOk
  have hdsSizes : ds.map SliceDim.size = sizes := by
    refine ext_getElem (by rw [length_map, hlen]) fun d hd hd' => ?_
    obtain ⟨s, -, heq, -⟩ := hget d (hlen.symm ▸ hd')
    rw [getElem_map, heq, ← coord_eq_getElem hd', SliceDim.size]
    simp
  refine ⟨_, hslice, (gathers_slice hslice).2.same ?_⟩
  rw [hdsSizes]
  refine hgathers.congr fun d hd k _ => ?_
  obtain ⟨s, hs, heq, hlow, hhigh⟩ := hget d (hlen.symm ▸ hd)
  have hclamp : clampStart (coord x.shape d) (coord sizes d) s.value = s.value.toNat := by
    rw [clampStart]
    omega
  rw [coord_clampStarts hok.1 hsizes (hsizes ▸ hd), sliceSource, getElem?_eq_getElem (hlen.symm ▸ hd), heq]
  change clampStart _ _ ((starts.map Start.value).getD d 0) + k = SliceDim.source _ k
  rw [getD_eq_getElem?_getD, getElem?_map, hs, map_some, getD_some, hclamp,
    SliceDim.source, Int.mul_one, Int.toNat_add_nat hlow]

theorem sliceOpCreate_eq (h : slice ds x = some y) : ∃ z, SliceOpCreate ds x = some z ∧ Same z y := by
  rw [SliceOpCreate]
  split
  · exact ⟨y, h, .refl y⟩
  · rename_i hneeded
    -- Every dimension is taken whole.
    obtain ⟨hok, hgathers⟩ := gathers_slice h
    have hwhole : ∀ d (hd : d < ds.length) (hd' : d < x.shape.length), ds[d] = ⟨0, x.shape[d], 1⟩ := by
      intro d hd hd'
      have hmem : (ds[d], x.shape[d]) ∈ zip ds x.shape := by
        rw [← getElem_zip (h := by rw [length_zip]; exact lt_min hd hd')]
        exact getElem_mem _
      by_contra hne
      refine hneeded (any_eq_true.mpr ⟨_, hmem, decide_eq_true ?_⟩)
      by_contra hall
      simp only [not_or, not_not] at hall
      obtain ⟨hstart, hlimit, hstride⟩ := hall
      exact hne (by rw [← hstart, ← hlimit, ← hstride])
    have hsizes : ds.map SliceDim.size = x.shape := by
      refine ext_getElem (by rw [length_map, hok.length_eq]) fun d hd hd' => ?_
      rw [length_map] at hd
      rw [getElem_map, hwhole d hd hd']
      simp [SliceDim.size]
    refine ⟨x, rfl, (gathers_self x).same (hsizes ▸ hgathers.congr fun d hd k _ => ?_)⟩
    rw [length_map] at hd
    rw [sliceSource, getElem?_eq_getElem hd, hwhole d hd (hok.length_eq ▸ hd)]
    change SliceDim.source _ k = k
    rw [SliceDim.source, Int.zero_add, Int.mul_one, Int.toNat_natCast]

theorem constantSlice_eq_some {s : Start} :
    constantSlice s size dim = some d ↔ ∃ c : Int, s.getSExtValue = some c ∧ c + size ≤ dim ∧ d = ⟨c, c + size, 1⟩ := by
  rw [constantSlice]
  cases hc : s.getSExtValue with
  | none => simp
  | some c =>
    by_cases hle : c + size > dim
    · simp [hle]
    · simp [hle, not_lt.mp hle, eq_comm]

theorem staticSlice_eq_some {s : Start} : staticSlice s size dim = some d ↔
      ∃ c : Int, s.getSExtValue = some c ∧ 0 ≤ c ∧ c + size ≤ dim ∧ d = ⟨c, c + size, 1⟩ := by
  rw [staticSlice]
  cases hc : s.getSExtValue with
  | none => simp
  | some c =>
    by_cases hneg : c < 0
    · simp [hneg, hneg.not_ge]
    · by_cases hle : c + size > dim
      · simp [hneg, hle]
      · simp [hneg, not_lt.mp hneg, hle, not_lt.mp hle, eq_comm]

theorem constantSlices_iff (hy : dynamicSlice (starts.map Start.value) sizes x = some y) :
    (∃ ds, allSome (zipWith3 constantSlice starts sizes x.shape) = some ds) ↔ ∀ d s, starts[d]? = some s →
        ∃ c : Int, s.getSExtValue = some c ∧ c + coord sizes d ≤ coord x.shape d := by
  obtain ⟨hok, -⟩ := gathers_dynamicSlice hy
  have hstarts : x.shape.length = starts.length := by rw [← hok.1, length_map]
  rw [exists_allSome_zipWith3_iff (hok.2.length_eq.trans hstarts) hstarts]
  refine forall₃_congr fun d s _ => ?_
  simp only [constantSlice_eq_some]
  constructor
  · rintro ⟨-, c, hc, hle, -⟩
    exact ⟨c, hc, hle⟩
  · rintro ⟨c, hc, hle⟩
    exact ⟨_, c, hc, hle, rfl⟩

theorem start_nonneg_of_sliceOpCreate (h : SliceOpCreate ds x = some z) {d : Nat} (hd : d < ds.length)
    (hd' : d < x.shape.length) : 0 ≤ ds[d].start := by
  rw [SliceOpCreate] at h
  split at h
  · have hok : ds[d].Ok x.shape[d] := (forall₂_iff_get.mp (gathers_slice h).1).2 d hd hd'
    exact hok.1
  · rename_i hneeded
    have hmem : (ds[d], x.shape[d]) ∈ zip ds x.shape := by
      rw [← getElem_zip (h := by rw [length_zip]; exact lt_min hd hd')]
      exact getElem_mem _
    by_contra hneg
    refine hneeded (any_eq_true.mpr ⟨_, hmem, decide_eq_true (.inl ?_)⟩)
    dsimp only
    omega

theorem createsWhen_of_eq_some (hy : dynamicSlice (starts.map Start.value) sizes x = some y)
    (hz : DynamicSliceOpCreate starts sizes x = some z) : CreatesWhen starts sizes x.shape := by
  obtain ⟨hok, -⟩ := gathers_dynamicSlice hy
  have hstarts : x.shape.length = starts.length := by rw [← hok.1, length_map]
  rw [CreatesWhen, ← constantSlices_iff hy]
  rintro ⟨ds, hds⟩ s hs c hc
  obtain ⟨hlen, hget⟩ := (allSome_zipWith3_iff (hok.2.length_eq.trans hstarts) hstarts).mp hds
  obtain ⟨d, hd, rfl⟩ := getElem_of_mem hs
  have hd' : d < ds.length := hlen.symm ▸ hd
  obtain ⟨c', hc', -, heq⟩ := constantSlice_eq_some.mp
    (hget d _ _ (getElem?_eq_getElem hd) (getElem?_eq_getElem hd'))
  cases hc.symm.trans hc'
  rw [DynamicSliceOpCreate, hds] at hz
  have hnonneg := start_nonneg_of_sliceOpCreate hz hd' (hstarts.symm ▸ hd)
  rwa [heq] at hnonneg

section

variable (hvalid : ∀ s ∈ starts, s.Valid)

include hvalid

theorem creationPreserves_of_createsWhen (h : CreatesWhen starts sizes shape) :
    CreationPreserves α starts sizes shape := by
  intro x y hx hy
  subst hx
  obtain ⟨hok, -⟩ := gathers_dynamicSlice hy
  have hstarts : x.shape.length = starts.length := by rw [← hok.1, length_map]
  have hsizes : sizes.length = starts.length := hok.2.length_eq.trans hstarts
  rw [CreatesWhen, ← constantSlices_iff hy] at h
  rw [DynamicSliceOpCreate]
  split
  · rename_i ds hds
    obtain ⟨hlen, hget⟩ := (allSome_zipWith3_iff hsizes hstarts).mp hds
    obtain ⟨z, hz, hsame⟩ : ∃ z, slice ds x = some z ∧ Same z y := by
      refine slice_eq_of_inBounds (hlen.trans hsizes.symm) (fun d hd s hs => ?_) hy
      obtain ⟨c, hc, hle, heq⟩ :=
        constantSlice_eq_some.mp (hget d s _ hs (getElem?_eq_getElem hd))
      have hmem := mem_of_getElem? hs
      have hlow := h ⟨ds, hds⟩ s hmem c hc
      rw [heq, value_of_getSExtValue (hvalid s hmem) hc hlow]
      exact ⟨rfl, hlow, hle⟩
    obtain ⟨w, hw, hwsame⟩ := sliceOpCreate_eq hz
    exact ⟨w, hw, hwsame.trans hsame⟩
  · exact ⟨y, hy, .refl y⟩

theorem creationPreserves_iff (hy : dynamicSlice (starts.map Start.value) sizes x = some y) :
    CreationPreserves α starts sizes x.shape ↔ CreatesWhen starts sizes x.shape := by
  refine ⟨fun h => ?_, creationPreserves_of_createsWhen hvalid⟩
  obtain ⟨z, hz, -⟩ := h x y rfl hy
  exact createsWhen_of_eq_some hy hz

theorem replacementPreserves :
    ReplacementPreserves α starts sizes shape := by
  intro x y hx hy res hres
  obtain ⟨ds, hds, rfl⟩ := map_eq_some_iff.mp hres
  obtain ⟨hok, -⟩ := gathers_dynamicSlice hy
  have hstarts : x.shape.length = starts.length := by rw [← hok.1, length_map]
  have hsizes : sizes.length = starts.length := hok.2.length_eq.trans hstarts
  obtain ⟨hlen, hget⟩ := (allSome_zipWith3_iff hsizes hstarts).mp hds
  refine slice_eq_of_inBounds (hlen.trans hsizes.symm) (fun d hd s hs => ?_) hy
  obtain ⟨c, hc, hlow, hhigh, heq⟩ :=
    staticSlice_eq_some.mp (hget d s _ hs (getElem?_eq_getElem hd))
  rw [heq, value_of_getSExtValue (hvalid s (mem_of_getElem? hs)) hc hlow]
  exact ⟨rfl, hlow, hhigh⟩

end

end

/-! ### Slices of a vector -/

/-- A start of type `i32`. -/
def i32Start (start : Int) (isConstant : Bool) : Start := ⟨⟨32, false⟩, start, isConstant⟩

def vectorSlice (start : Int) (size : Nat) : Slice := .dynamic [i32Start start false] [size]

theorem vectorSlice_valid {start : Int} {size : Nat} (h : (i32Start start false).Valid) :
    (vectorSlice start size).Valid := by
  intro s hs
  obtain rfl := mem_singleton.mp hs
  exact h

end EnzymeJax.DynamicSlices
