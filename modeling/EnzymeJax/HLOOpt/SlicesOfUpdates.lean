import EnzymeJax.HLOOpt.OverlapTests

/-!
# Slices of updated tensors

A slice of a `dynamic_update_slice` is taken of the update or of the operand, is made of parts of both, or both are
sliced before the update. Where the update starts is taken from the constants as they are, not as clamped.
-/

namespace EnzymeJax.SlicesOfUpdates

open Tensor OverlapTests Option Function
open List hiding allSome

/-! ### The patterns -/

/-- What the slice is replaced by. -/
inductive NewSlice
  | update (dims : List SliceDim)
  | operand (dims : List SliceDim)

/-- The slice of the update, if the slice is inside of it. -/
def insideUpdate : List SliceDim → List StartIndex → List Nat → Option (List SliceDim)
  | n :: slice, updateStart :: starts, updateSize :: update =>
    match updateStart.getSExtValue with
    | none => none
    | some startv =>
      if startv < 0 then none
      else if n.start < startv then none
      else if startv + updateSize < n.limit then none
      else (insideUpdate slice starts update).map (⟨n.start - startv, n.limit - startv, n.stride⟩ :: ·)
  | _, _, _ => some []

def noOverlap : List SliceDim → List StartIndex → List Nat → Bool
  | n :: slice, updateStart :: starts, updateSize :: update =>
    match updateStart.getSExtValue with
    | none => noOverlap slice starts update
    | some startv =>
      if n.limit ≤ startv then true
      else if startv + updateSize ≤ n.start then true
      else noOverlap slice starts update
  | _, _, _ => false

def SliceOfDynamicUpdate (slice : List SliceDim) (starts : List StartIndex) (update : List Nat) : Option NewSlice :=
  match insideUpdate slice starts update with
  | some dims => some (.update dims)
  | none => if noOverlap slice starts update then some (.operand slice) else none

/-- An operand of the new concatenation. -/
inductive Piece
  | operand (dims : List SliceDim)
  | update
  | updateSlice (dims : List SliceDim)

/-- The only dimension, from `d` on, in which the slice is not that of the update. -/
def findConcatDim : Nat → Option Nat → List SliceDim → List Int → List Nat → Option (Option Nat)
  | d, concatDim, s :: slice, dusStart :: starts, n :: update =>
    let dusEnd := dusStart + n
    if dusStart = s.start ∧ dusEnd = s.limit then findConcatDim (d + 1) concatDim slice starts update
    else if concatDim.isSome then none
    else if s.limit ≤ dusStart ∨ dusEnd ≤ s.start then none
    else if dusStart ≤ s.start ∧ s.start ≤ dusEnd then none
    else findConcatDim (d + 1) (some d) slice starts update
  | _, concatDim, _, _, _ => some concatDim

/-- The parts of the operand and of the update, in the order of the dimension. -/
def piecesAlong (slice : List SliceDim) (starts : List Int) (update : List Nat) (concatDim : Nat) : List Piece :=
  let s := sliceDim slice concatDim
  let dusStart := starts.getD concatDim 0
  let dusLimit := dusStart + coord update concatDim
  let newSlice (newStart newLimit : List Int) : List SliceDim :=
    List.zipWith (fun (p : Int × Int) (q : Int × SliceDim) => ⟨p.1 - q.1, p.2 - q.1, q.2.stride⟩)
      (List.zip newStart newLimit) (List.zip starts slice)
  (if s.start < dusStart then [Piece.operand (slice.set concatDim ⟨s.start, dusStart, s.stride⟩)] else []) ++
  (if dusLimit ≤ s.limit ∧ s.start ≤ dusStart then [Piece.update]
    else if s.limit ≤ dusLimit then [Piece.updateSlice (newSlice starts (slice.map SliceDim.limit))]
    else if dusStart ≤ s.start then
      [Piece.updateSlice (newSlice (slice.map SliceDim.start) (List.zipWith (· + ·) starts (update.map Int.ofNat)))]
    else []) ++
  (if dusLimit < s.limit then [Piece.operand (slice.set concatDim ⟨dusLimit, s.limit, s.stride⟩)] else [])

/-- The dimension, and the operands of the concatenation along it. -/
def SliceDUSToConcat (slice : List SliceDim) (starts : List StartIndex) (update : List Nat) :
    Option (Nat × List Piece) := do
  let starts ← allSome (starts.map StartIndex.getSExtValue)
  if slice.any fun s => s.stride ≠ 1 then none
  else do
    let concatDim ← findConcatDim 0 none slice starts update
    let concatDim ← concatDim
    return (concatDim, piecesAlong slice starts update concatDim)

/-- The slices of the operand and of the update, where it is updated, and the slices of the result. -/
structure Simplified where
  operand : List SliceDim
  update : List SliceDim
  starts : List Int
  slices : List (List SliceDim)

def ignoredStart (shape : List Nat) (slices : List (List SliceDim)) : List Int :=
  slices.foldl (fun ignored slice => List.zipWith (fun s i => if s.start < i then s.start else i) slice ignored)
    (shape.map Int.ofNat)

def ignoredEnd (shape : List Nat) (slices : List (List SliceDim)) : List Int :=
  slices.foldl (fun ignored slice => List.zipWith (fun s i => if i < s.limit then s.limit else i) slice ignored)
    (shape.map fun _ => 0)

/-- The users of the update are slices, or other ops. -/
def DUSSliceSimplify (shape : List Nat) (starts : List StartIndex) (update : List Nat)
    (users : List (Option (List SliceDim))) : Option Simplified := do
  let slices ← allSome users
  let ignoredStart := ignoredStart shape slices
  let ignoredEnd := ignoredEnd shape slices
  if slices.isEmpty then none
  else if ignoredStart.all (· = 0) ∧ ignoredEnd = shape.map Int.ofNat then none
  else do
    let dusStart ← allSome (starts.map StartIndex.getSExtValue)
    return {
      operand := List.zipWith (fun low high => ⟨low, high, 1⟩) ignoredStart ignoredEnd
      update := List.zipWith (fun (p : Int × Int) (q : Int × Nat) =>
          ⟨if q.1 < p.1 then p.1 - q.1 else 0, if p.2 < q.1 + q.2 then q.2 - (q.1 + q.2 - p.2) else q.2, 1⟩)
        (List.zip ignoredStart ignoredEnd) (List.zip dusStart update)
      starts := List.zipWith (fun ignored start => if ignored < start then start - ignored else 0) ignoredStart dusStart
      slices := slices.map fun slice => List.zipWith (fun s ignored =>
        ⟨s.start - ignored, s.start - ignored + s.size, s.stride⟩) slice ignoredStart }

section

variable {α : Type} (u x : Tensor α)

def NewSlice.eval : NewSlice → Option (Tensor α)
  | update dims => slice dims u
  | operand dims => slice dims x

def Piece.eval : Piece → Option (Tensor α)
  | operand dims => slice dims x
  | update => some u
  | updateSlice dims => slice dims u

def concatPieces (dim : Nat) (pieces : List Piece) : Option (Tensor α) :=
  (allSome (pieces.map (Piece.eval u x))).bind (concatenate dim)

def Simplified.eval (new : Simplified) : Option (List (Tensor α)) := do
  let preSliceOperand ← slice new.operand x
  let preSliceUpdate ← slice new.update u
  let newDus ← dynamicUpdateSlice new.starts preSliceUpdate preSliceOperand
  allSome (new.slices.map fun ds => slice ds newDus)

end

/-! ### Updates in other places -/

/-- The position is one of an update that starts at `start`. -/
def Inside (rank : Nat) (update : List Nat) (start : Nat → Int) (p : Nat → Nat) : Prop :=
  ∀ d < rank, start d ≤ p d ∧ p d < start d + coord update d

instance (rank : Nat) (update : List Nat) (start : Nat → Int) (p : Nat → Nat) :
    Decidable (Inside rank update start p) := inferInstanceAs (Decidable (∀ d < rank, _ ∧ _))

section

variable {α : Type}

/-- An element of a tensor with the update at `start`, which may be out of bounds. -/
def placed (start : Nat → Int) (u x : Tensor α) (p : Nat → Nat) : α :=
  if Inside x.shape.length u.shape start p then u.read fun d => (p d - start d).toNat else x.read p

/-- Where the update of the operand starts. -/
def clamped (shape update : List Nat) (ss : List Int) (d : Nat) : Int :=
  clampStart (coord shape d) (coord update d) (ss.getD d 0)

variable {shape update : List Nat} {starts : List StartIndex} {ss : List Int} {u x y z : Tensor α}
  {start start' : Nat → Int} {p c : Nat → Nat} {ds : List SliceDim} {d : Nat}

theorem placed_congr (h : ∀ d < x.shape.length, start d = start' d) (hu : u.shape.length = x.shape.length) :
    placed start u x p = placed start' u x p := by
  have hiff : Inside x.shape.length u.shape start p ↔ Inside x.shape.length u.shape start' p :=
    forall₂_congr fun d hd => by rw [h d hd]
  rw [placed, placed]
  refine if_congr hiff (read_congr u fun d hd => ?_) rfl
  rw [h d (hu ▸ hd)]

theorem placed_congr_pos {q : Nat → Nat} (h : ∀ d < x.shape.length, p d = q d) (hu : u.shape.length = x.shape.length) :
    placed start u x p = placed start u x q := by
  have hiff : Inside x.shape.length u.shape start p ↔ Inside x.shape.length u.shape start q :=
    forall₂_congr fun d hd => by rw [h d hd]
  rw [placed, placed]
  refine if_congr hiff (read_congr u fun d hd => ?_) (read_congr x h)
  rw [h d (hu ▸ hd)]

theorem read_update (hy : dynamicUpdateSlice ss u x = some y) (hp : Within x.shape p) :
    y.read p = placed (clamped x.shape u.shape ss) u x p := by
  obtain ⟨-, -, hread⟩ := read_dynamicUpdateSlice hy
  obtain ⟨hin, hout⟩ := hread p hp
  have hiff : Inside x.shape.length u.shape (clamped x.shape u.shape ss) p ↔
      ∀ d < x.shape.length, updateStart x.shape u.shape ss d ≤ p d ∧
        p d < updateStart x.shape u.shape ss d + coord u.shape d := by
    refine forall₂_congr fun d _ => ?_
    rw [clamped, updateStart]
    omega
  rw [placed]
  split
  · rename_i hinside
    rw [hin (hiff.mp hinside)]
    refine read_congr u fun d _ => ?_
    rw [clamped, updateStart]
    omega
  · rename_i hinside
    exact hout fun h => hinside (hiff.mpr h)

theorem read_slice_placed (hy : dynamicUpdateSlice ss u x = some y) (hz : slice ds y = some z) (hc : Within z.shape c) :
    z.read c = placed (clamped x.shape u.shape ss) u x fun d => (sliceDim ds d).source (c d) := by
  obtain ⟨-, hshape, -⟩ := read_dynamicUpdateSlice hy
  obtain ⟨-, -, -, hread⟩ := read_slice hz
  have hwithin := within_source hz hc
  rw [hshape] at hwithin
  rw [hread c hc, read_update hy hwithin]

section

variable [Nontrivial α] (hupdate : update.length = shape.length) (hd : d < shape.length)
  (hne : start d ≠ start' d) (hp : Inside shape.length update start p)

include hupdate hd hne hp

theorem exists_placed_splat_ne : ∃ (u : Tensor α) (a : α),
      u.shape = update ∧ placed start u (splat shape a) p ≠ placed start' u (splat shape a) p := by
  obtain ⟨a, b, hab⟩ := exists_pair_ne α
  let u : Tensor α := ⟨update, fun idx => if coord idx d = (p d - start d).toNat then b else a⟩
  have hread : ∀ f : Nat → Nat, u.read f = if f d = (p d - start d).toNat then b else a :=
    read_mark (hupdate.symm ▸ hd) fun k => if k = (p d - start d).toNat then b else a
  refine ⟨u, a, rfl, ?_⟩
  have hleft : placed start u (splat shape a) p = b := by
    rw [placed, if_pos (by exact hp), hread, if_pos rfl]
  have hright : placed start' u (splat shape a) p = a := by
    rw [placed]
    split
    · rename_i hp'
      have hlow := (hp d hd).1
      have hlow' := (hp' d hd).1
      rw [hread, if_neg (by omega)]
    · rfl
  rw [hleft, hright]
  exact hab.symm

theorem exists_placed_ne : ∃ u x : Tensor α,
      u.shape = update ∧ x.shape = shape ∧ placed start u x p ≠ placed start' u x p := by
  obtain ⟨u, a, hu, hplaced⟩ := exists_placed_splat_ne (α := α) hupdate hd hne hp
  exact ⟨u, splat shape a, hu, rfl, hplaced⟩

end

/-- The constants, as they are read. -/
def ReadAs (starts : List StartIndex) (rank : Nat) (start : Nat → Int) : Prop :=
  ∀ d < rank, (startAt starts d).getSExtValue = some (start d)

/-- There is a dimension of which the slice takes nothing of the update, if it were where the constant says. -/
def ApartUnclamped (slice : List SliceDim) (shape update : List Nat) (starts : List StartIndex) : Prop :=
  ∃ d < shape.length, ∀ start, (startAt starts d).getSExtValue = some start → ∀ k < (sliceDim slice d).size,
    ¬(start ≤ (sliceDim slice d).source k ∧ (sliceDim slice d).source k < start + coord update d)

/-- The slice takes nothing of the update, neither where it is nor where the constants say. -/
def Missed (slice : List SliceDim) (shape update : List Nat) (starts : List StartIndex) : Prop :=
  Apart slice shape update starts ∧ ApartUnclamped slice shape update starts

theorem has_unique {s : StartIndex} {a b r : Int} (hr : s.getSExtValue = some r) (ha : s.Has a) (hb : s.Has b) :
    a = b := by
  cases s with
  | runtime => cases hr
  | constant type n => exact ha.1.trans hb.1.symm

section

variable (hreads : ReadAs starts shape.length start) (hstarts : starts.length = shape.length)
  (hss : HaveValues starts ss)

include hreads hstarts hss

theorem clamped_eq_iff (hfits : Forall₂ (· ≤ ·) update shape) :
    (∀ d < shape.length, clamped shape update ss d = start d) ↔ InRange shape update starts := by
  constructor
  · intro h d hd r hr
    cases (hreads d hd).symm.trans hr
    have hd' : d < update.length := hfits.length_eq.symm ▸ hd
    have hle : coord update d ≤ coord shape d := by
      rw [coord_eq_getElem hd, coord_eq_getElem hd']
      exact (forall₂_iff_get.mp hfits).2 d hd' hd
    have hclamp := clampStart_le hle (ss.getD d 0)
    rw [← h d hd, clamped]
    omega
  · intro hrange d hd
    exact clampStart_of_inRange hrange hd (hss.2 d (hstarts.symm ▸ hd)) (hreads d hd)

theorem not_apart_iff : ¬Apart ds shape update starts ↔ ∃ k : Nat → Nat,
    (∀ d < shape.length, k d < (sliceDim ds d).size) ∧
    Inside shape.length update (clamped shape update ss) fun d => (sliceDim ds d).source (k d) := by
  constructor
  · intro hnot
    simp only [Apart, not_exists, not_and, not_forall, not_not] at hnot
    choose! value hhas k hk hwrites using hnot
    refine ⟨k, hk, fun d hd => ?_⟩
    have hwrite := hwrites d hd
    rw [has_unique (hreads d hd) (hhas d hd) (hss.2 d (hstarts.symm ▸ hd))] at hwrite
    obtain ⟨hlow, hhigh⟩ := hwrite
    rw [clamped]
    beta_reduce
    omega
  · rintro ⟨k, hk, hinside⟩ ⟨d, hd, hnot⟩
    obtain ⟨hlow, hhigh⟩ := hinside d hd
    rw [clamped] at hlow hhigh
    beta_reduce at hlow hhigh
    exact hnot _ (hss.2 d (hstarts.symm ▸ hd)) (k d) (hk d hd) ⟨by omega, by omega⟩

omit hstarts hss in
theorem not_apartUnclamped_iff : ¬ApartUnclamped ds shape update starts ↔
    ∃ k : Nat → Nat, (∀ d < shape.length, k d < (sliceDim ds d).size) ∧
      Inside shape.length update start fun d => (sliceDim ds d).source (k d) := by
  constructor
  · intro hnot
    simp only [ApartUnclamped, not_exists, not_and, not_forall, not_not] at hnot
    choose! value hval k hk hwrites using hnot
    refine ⟨k, hk, fun d hd => ?_⟩
    have hwrite := hwrites d hd
    rw [← some.inj ((hreads d hd).symm.trans (hval d hd))] at hwrite
    obtain ⟨hlow, hhigh⟩ := hwrite
    exact ⟨hlow, hhigh⟩
  · rintro ⟨k, hk, hinside⟩ ⟨d, hd, hnot⟩
    exact hnot _ (hreads d hd) (k d) (hk d hd) (hinside d hd)

end

end

/-! ### Replacements -/

/-- Whatever the tensors are, the slices of the updated tensor are what `new` makes of them. -/
def Preserves (α : Type) (slices : List (List SliceDim)) (shape update : List Nat) (starts : List StartIndex)
    (new : Tensor α → Tensor α → Option (List (Tensor α))) : Prop :=
  ∀ (ss : List Int) (x u y : Tensor α) (zs : List (Tensor α)), HaveValues starts ss → x.shape = shape →
    u.shape = update → dynamicUpdateSlice ss u x = some y → allSome (slices.map fun ds => slice ds y) = some zs →
      ∃ ws, new u x = some ws ∧ List.Forall₂ Same ws zs

/-- The tensor has the elements of a slice of the operand with the update at `start`. -/
structure SlicePlaced {α : Type} (start : Nat → Int) (u x : Tensor α) (ds : List SliceDim) (w : Tensor α) : Prop where
  shape_eq : w.shape = ds.map SliceDim.size
  read_eq : ∀ c, Within w.shape c → w.read c = placed start u x fun d => (sliceDim ds d).source (c d)

section

variable {α : Type} {slices : List (List SliceDim)} {shape update : List Nat} {starts : List StartIndex}
  {start : Nat → Int} {u x y w z : Tensor α} {ss : List Int} {ds : List SliceDim}
  {new : Tensor α → Tensor α → Option (List (Tensor α))}

theorem slicePlaced_of_slice (hy : dynamicUpdateSlice ss u x = some y) (hz : slice ds y = some z) :
    SlicePlaced (clamped x.shape u.shape ss) u x ds z :=
  ⟨(read_slice hz).2.1, fun _ hc => read_slice_placed hy hz hc⟩

theorem forall₂_of_allSome {zs : List (Tensor α)} (hy : dynamicUpdateSlice ss u x = some y)
    (hzs : allSome (slices.map fun ds => slice ds y) = some zs) :
    Forall₂ (SlicePlaced (clamped x.shape u.shape ss) u x) slices zs :=
  (allSome_map_iff.mp hzs).imp fun _ _ hz => slicePlaced_of_slice hy hz

theorem SlicePlaced.same (hw : SlicePlaced start u x ds w) (hz : SlicePlaced start u x ds z) : Same w z := by
  refine same_of_read (hw.shape_eq.trans hz.shape_eq.symm) fun c hc => ?_
  rw [hw.read_eq c hc, hz.read_eq c (by rwa [hz.shape_eq, ← hw.shape_eq])]

theorem exists_slices (hslices : ∀ ds ∈ slices, Forall₂ SliceDim.Ok ds x.shape) :
    ∃ zs, allSome (slices.map fun ds => slice ds x) = some zs := by
  refine exists_allSome_iff.mpr fun a ha => ?_
  obtain ⟨ds, hds, rfl⟩ := mem_map.mp ha
  exact ⟨_, if_pos (hslices ds hds)⟩

variable (hreads : ReadAs starts shape.length start) (hstarts : starts.length = shape.length)
  (hfits : List.Forall₂ (· ≤ ·) update shape) (hvalues : ∃ ss, HaveValues starts ss)
  (hslices : ∀ ds ∈ slices, List.Forall₂ SliceDim.Ok ds shape)

include hreads hstarts hfits hvalues hslices

/-- What has the update where the constants say is right if and only if it is there, or not sliced. -/
theorem preserves_iff_placed [Nontrivial α] (hnew : ∀ u x : Tensor α, u.shape = update → x.shape = shape →
      ∃ ws, new u x = some ws ∧ Forall₂ (SlicePlaced start u x) slices ws) :
    Preserves α slices shape update starts new ↔
      InRange shape update starts ∨ ∀ ds ∈ slices, Missed ds shape update starts := by
  have hranks := hfits.length_eq
  constructor
  · intro h
    obtain ⟨ss, hss⟩ := hvalues
    by_contra hnot
    obtain ⟨hrange, hmeets⟩ := not_or.mp hnot
    rw [← clamped_eq_iff hreads hstarts hss hfits] at hrange
    simp only [not_forall] at hrange hmeets
    obtain ⟨e, he, hne⟩ := hrange
    obtain ⟨ds, hds, hmeets⟩ := hmeets
    -- an element of the slice that one of the places has tells them apart
    obtain ⟨k, u, x, hk, hu, hx, hdiffer⟩ : ∃ (k : Nat → Nat) (u x : Tensor α),
        (∀ d < shape.length, k d < (sliceDim ds d).size) ∧ u.shape = update ∧ x.shape = shape ∧
          placed (clamped shape update ss) u x (fun d => (sliceDim ds d).source (k d)) ≠
            placed start u x fun d => (sliceDim ds d).source (k d) := by
      rcases not_and_or.mp hmeets with hmeets | hmeets
      · obtain ⟨k, hk, hinside⟩ := (not_apart_iff hreads hstarts hss).mp hmeets
        obtain ⟨u, x, hu, hx, hdiffer⟩ := exists_placed_ne (α := α) hranks he hne hinside
        exact ⟨k, u, x, hk, hu, hx, hdiffer⟩
      · obtain ⟨k, hk, hinside⟩ := (not_apartUnclamped_iff hreads).mp hmeets
        obtain ⟨u, x, hu, hx, hdiffer⟩ := exists_placed_ne (α := α) hranks he (Ne.symm hne) hinside
        exact ⟨k, u, x, hk, hu, hx, hdiffer.symm⟩
    obtain ⟨y, hy⟩ : ∃ y, dynamicUpdateSlice ss u x = some y :=
      ⟨_, if_pos ⟨by rw [hss.1, hstarts, hx], by rw [hu, hx]; exact hfits⟩⟩
    have hyshape := (read_dynamicUpdateSlice hy).2.1
    obtain ⟨zs, hzs⟩ : ∃ zs, allSome (slices.map fun ds => slice ds y) = some zs := exists_slices fun ds hds => by
      rw [hyshape, hx]
      exact hslices ds hds
    obtain ⟨ws, hws, hsame⟩ := h ss x u y zs hss hx hu hy hzs
    obtain ⟨ws', hws', hplaced⟩ := hnew u x hu hx
    cases hws.symm.trans hws'
    obtain ⟨i, hi, rfl⟩ := getElem_of_mem hds
    have hplaced' := forall₂_of_allSome hy hzs
    have hiw : i < ws.length := hplaced.length_eq ▸ hi
    have hiz : i < zs.length := hplaced'.length_eq ▸ hi
    have hw := (forall₂_iff_get.mp hplaced).2 i hi hiw
    have hz := (forall₂_iff_get.mp hplaced').2 i hi hiz
    have hwz := (forall₂_iff_get.mp hsame).2 i hiw hiz
    have hlen : slices[i].length = shape.length := (hslices _ hds).length_eq
    have hwithin : Within (ws.get ⟨i, hiw⟩).shape k := by
      intro d hd
      rw [hw.shape_eq, length_map] at hd
      rw [hw.shape_eq, coord_map _ _ hd, ← sliceDim_eq_getElem]
      exact hk d (hlen ▸ hd)
    have heq := hwz.read_eq hwithin
    rw [hw.read_eq k hwithin, hz.read_eq k (hwz.shape_eq ▸ hwithin), hu, hx] at heq
    exact hdiffer heq.symm
  · intro hright ss x u y zs hss hx hu hy hzs
    obtain ⟨ws, hws, hplaced⟩ := hnew u x hu hx
    have hplaced' := forall₂_of_allSome hy hzs
    refine ⟨ws, hws, forall₂_iff_get.mpr ⟨hplaced.length_eq.symm.trans hplaced'.length_eq, fun i hiw hiz => ?_⟩⟩
    have hi : i < slices.length := hplaced.length_eq.symm ▸ hiw
    have hw := (forall₂_iff_get.mp hplaced).2 i hi hiw
    have hz := (forall₂_iff_get.mp hplaced').2 i hi hiz
    rw [hx, hu] at hz
    refine SlicePlaced.same ⟨hw.shape_eq, fun c hc => ?_⟩ hz
    rw [hw.read_eq c hc]
    have hlen : slices[i].length = shape.length := (hslices _ (getElem_mem hi)).length_eq
    rcases hright with hrange | hmissed
    · rw [← clamped_eq_iff hreads hstarts hss hfits] at hrange
      exact placed_congr (fun d hd => (hrange d (hx ▸ hd)).symm) (by rw [hu, hx, hranks])
    · obtain ⟨hapart, hunclamped⟩ := hmissed _ (getElem_mem hi)
      have hk : ∀ d < shape.length, c d < (sliceDim slices[i] d).size := by
        intro d hd
        have hd' : d < slices[i].length := hlen.symm ▸ hd
        have hlt := hc d (by rwa [hw.shape_eq, length_map])
        rwa [hw.shape_eq, get_eq_getElem, coord_map _ _ hd', ← sliceDim_eq_getElem] at hlt
      rw [placed, placed, if_neg, if_neg]
      · rw [hx, hu]
        exact fun hinside => (not_apart_iff hreads hstarts hss).mpr ⟨c, hk, hinside⟩ hapart
      · rw [hx, hu]
        exact fun hinside => (not_apartUnclamped_iff hreads).mpr ⟨c, hk, hinside⟩ hunclamped

end

/-! ### Slices of the update or of the operand -/

def readAt (starts : List StartIndex) (d : Nat) : Int := (startAt starts d).getSExtValue.getD 0

variable {s : SliceDim} {n : Nat}

section

variable {α : Type} {ds dims : List SliceDim} {shape update : List Nat} {starts : List StartIndex} {u x : Tensor α}

theorem insideUpdate_eq_some (hstarts : starts.length = ds.length) (hupdate : update.length = ds.length)
    (h : insideUpdate ds starts update = some dims) : dims.length = ds.length ∧ ∀ d < ds.length,
      (startAt starts d).getSExtValue = some (readAt starts d) ∧ 0 ≤ readAt starts d ∧
        readAt starts d ≤ (sliceDim ds d).start ∧ (sliceDim ds d).limit ≤ readAt starts d + coord update d ∧
          sliceDim dims d = ⟨(sliceDim ds d).start - readAt starts d, (sliceDim ds d).limit - readAt starts d,
            (sliceDim ds d).stride⟩ := by
  induction ds generalizing starts update dims with
  | nil =>
    rw [insideUpdate] at h
    · cases h
      exact ⟨rfl, fun d hd => absurd hd (Nat.not_lt_zero d)⟩
    · intro _ _ _ _ _ _ heq
      cases heq
  | cons s ds ih =>
    obtain ⟨updateStart, starts, rfl⟩ := exists_cons_of_length_eq_add_one hstarts
    obtain ⟨n, update, rfl⟩ := exists_cons_of_length_eq_add_one hupdate
    rw [insideUpdate] at h
    split at h
    · cases h
    · rename_i startv hstartv
      split_ifs at h with hneg hlow hhigh
      obtain ⟨rest, hrest, rfl⟩ := map_eq_some_iff.mp h
      obtain ⟨hlen, hat⟩ := ih (add_right_cancel hstarts) (add_right_cancel hupdate) hrest
      refine ⟨congrArg (· + 1) hlen, fun d hd => ?_⟩
      cases d with
      | zero =>
        have hread : readAt (updateStart :: starts) 0 = startv := by
          change updateStart.getSExtValue.getD 0 = startv
          rw [hstartv, getD_some]
        rw [hread]
        exact ⟨hstartv, not_lt.mp hneg, not_lt.mp hlow, not_lt.mp hhigh, rfl⟩
      | succ d => exact hat d (Nat.lt_of_succ_lt_succ hd)

theorem size_shift (a : Int) : (SliceDim.mk (s.start - a) (s.limit - a) s.stride).size = s.size := by
  rw [SliceDim.size, SliceDim.size]
  change ((s.limit - a - (s.start - a) + s.stride - 1) / s.stride).toNat = _
  rw [sub_sub_sub_cancel_right]

theorem slicePlaced_insideUpdate (hok : Forall₂ SliceDim.Ok ds shape) (hstarts : starts.length = ds.length)
    (hupdate : update.length = ds.length) (h : insideUpdate ds starts update = some dims) (hu : u.shape = update)
    (hx : x.shape = shape) : ∃ w, slice dims u = some w ∧ SlicePlaced (readAt starts) u x ds w := by
  obtain ⟨hds, hok⟩ := forall₂_ok_iff.mp hok
  obtain ⟨hlen, hat⟩ := insideUpdate_eq_some hstarts hupdate h
  have hdims : ∀ d < dims.length, (sliceDim dims d).Ok (coord u.shape d) := by
    intro d hd
    obtain ⟨-, -, hlow, hhigh, hdim⟩ := hat d (hlen ▸ hd)
    obtain ⟨-, hle, -, hstride⟩ := hok d (hlen ▸ hd)
    rw [hdim, hu]
    exact ⟨sub_nonneg.mpr hlow, sub_le_sub_right hle _, by dsimp only; omega, hstride⟩
  obtain ⟨w, hw⟩ := exists_slice (x := u) (hlen.trans (hupdate.symm.trans (congrArg _ hu.symm))) hdims
  obtain ⟨-, hshape, -, hread⟩ := read_slice hw
  have hsizes : w.shape = ds.map SliceDim.size := by
    rw [hshape]
    refine eq_of_coord (by rw [length_map, length_map, hlen]) fun d hd => ?_
    rw [length_map] at hd
    have hd' : d < ds.length := hlen ▸ hd
    obtain ⟨-, -, -, -, hdim⟩ := hat d hd'
    rw [coord_map _ _ hd, coord_map _ _ hd', ← sliceDim_eq_getElem, ← sliceDim_eq_getElem, hdim, size_shift]
  refine ⟨w, hw, hsizes, fun c hc => ?_⟩
  have hlt : ∀ d < ds.length, c d < (sliceDim ds d).size := by
    intro d hd
    have hlt := hc d (by rwa [hsizes, length_map])
    rwa [hsizes, coord_map _ _ hd, ← sliceDim_eq_getElem] at hlt
  rw [hread c hc, placed, if_pos]
  · refine read_congr u fun d hd => ?_
    have hd' : d < ds.length := by rw [← hupdate, ← hu]; exact hd
    obtain ⟨-, hpos, hlow, -, hdim⟩ := hat d hd'
    have hsrc := SliceDim.source_of_ok (hok d hd') (c d)
    have hsrc' := SliceDim.source_of_ok (hdims d (hlen.symm ▸ hd')) (c d)
    rw [hdim] at hsrc' ⊢
    dsimp only at hsrc'
    omega
  · intro d hd
    have hd' : d < ds.length := by rw [hds, ← hx]; exact hd
    obtain ⟨-, -, hlow, hhigh, -⟩ := hat d hd'
    have hfirst := start_le_source (hok d hd') (c d)
    have hlast := source_lt_limit (hok d hd') (hlt d hd')
    rw [hu]
    beta_reduce
    exact ⟨by omega, by omega⟩

theorem noOverlap_eq (starts : List StartIndex) (update : List Nat) :
    noOverlap ds starts update = !mayReadMemoryWrittenTo ds starts update := by
  induction ds generalizing starts update with
  | nil =>
    rw [noOverlap, mayReadMemoryWrittenTo]
    · rfl
    · intro _ _ _ _ _ _ heq
      cases heq
    · intro _ _ _ _ _ _ heq
      cases heq
  | cons s ds ih =>
    cases starts with
    | nil => rfl
    | cons updateStart starts =>
      cases update with
      | nil => rfl
      | cons n update =>
        rw [noOverlap, mayReadMemoryWrittenTo]
        cases updateStart.getSExtValue with
        | none => exact ih starts update
        | some startv =>
          dsimp only
          split
          · rfl
          · split
            · rfl
            · exact ih starts update

end

/-! ### Parts of both -/

section

variable {α : Type} {ds : List SliceDim} {shape update : List Nat} {starts : List Int} {u x : Tensor α} {c : Nat}

/-- The slice is that of the update but for dimension `c`, in which it begins before the update. -/
structure ReachesInto (ds : List SliceDim) (start : Nat → Int) (update : List Nat) (c : Nat) : Prop where
  lt : c < ds.length
  begins : (sliceDim ds c).start < start c
  meets : start c < (sliceDim ds c).limit
  others : ∀ d < ds.length, d ≠ c → (sliceDim ds d).start = start d ∧ (sliceDim ds d).limit = start d + coord update d

/-- All dimensions are those of the update. -/
def AllAligned (ds : List SliceDim) (starts : List Int) (update : List Nat) : Prop :=
  ∀ d < ds.length, (sliceDim ds d).start = starts.getD d 0 ∧ (sliceDim ds d).limit = starts.getD d 0 + coord update d

theorem findConcatDim_eq_some (hstarts : starts.length = ds.length) (hupdate : update.length = ds.length) {d : Nat}
    {found : Option Nat} {r : Option Nat} (h : findConcatDim d found ds starts update = some r) :
    (r = found ∧ AllAligned ds starts update) ∨
      (found = none ∧ ∃ c, r = some (d + c) ∧ ReachesInto ds (starts.getD · 0) update c) := by
  induction ds generalizing starts update d found with
  | nil =>
    rw [findConcatDim] at h
    · exact .inl ⟨(some.inj h).symm, fun d hd => absurd hd (Nat.not_lt_zero d)⟩
    · intro _ _ _ _ _ _ heq
      cases heq
  | cons s ds ih =>
    obtain ⟨dusStart, starts, rfl⟩ := exists_cons_of_length_eq_add_one hstarts
    obtain ⟨n, update, rfl⟩ := exists_cons_of_length_eq_add_one hupdate
    have ih := @ih _ _ (add_right_cancel hstarts) (add_right_cancel hupdate)
    rw [findConcatDim] at h
    split_ifs at h with haligned hfound hout hin
    · -- the dimension is that of the update
      rcases ih h with ⟨hr, hall⟩ | ⟨hnone, c, hr, hc⟩
      · refine .inl ⟨hr, fun d hd => ?_⟩
        cases d with
        | zero => exact ⟨haligned.1.symm, haligned.2.symm⟩
        | succ d => exact hall d (Nat.lt_of_succ_lt_succ hd)
      · refine .inr ⟨hnone, c + 1, by rw [hr, add_assoc, add_comm 1], Nat.succ_lt_succ hc.lt, hc.begins,
          hc.meets, fun d hd hdc => ?_⟩
        cases d with
        | zero => exact ⟨haligned.1.symm, haligned.2.symm⟩
        | succ d => exact hc.others d (Nat.lt_of_succ_lt_succ hd) fun heq => hdc (congrArg (· + 1) heq)
    · rcases ih h with ⟨hr, hall⟩ | ⟨hnone, -⟩
      · have hnone : found = none := by
          cases found with
          | none => rfl
          | some c => exact absurd rfl hfound
        refine .inr ⟨hnone, 0, hr, Nat.succ_pos _, ?_, ?_, fun d hd hd0 => ?_⟩
        · change s.start < dusStart
          omega
        · change dusStart < s.limit
          omega
        · obtain ⟨d, rfl⟩ := Nat.exists_eq_succ_of_ne_zero hd0
          exact hall d (Nat.lt_of_succ_lt_succ hd)
      · cases hnone

theorem sourceEq_of_unit (hs : s.Ok n) (hstride : s.stride = 1) (k : Nat) :
    (s.source k : Int) = s.start + k := by
  rw [SliceDim.source_of_ok hs, hstride, mul_one]

theorem sizeEq_of_unit (hs : s.Ok n) (hstride : s.stride = 1) : (s.size : Int) = s.limit - s.start := by
  have hle := hs.2.1
  rw [SliceDim.size, hstride, Int.ediv_one, add_sub_cancel_right, Int.toNat_of_nonneg (sub_nonneg.mpr hle)]

section

variable (hok : List.Forall₂ SliceDim.Ok ds shape)
  (hstrides : ∀ d < ds.length, (sliceDim ds d).stride = 1) (hstarts : starts.length = ds.length)
  (hupdate : update.length = ds.length) (hreach : ReachesInto ds (starts.getD · 0) update c)

include hok hstrides hstarts hupdate hreach

theorem exists_updatePiece (u x : Tensor α) (hu : u.shape = update) :
    ∃ piece t, piecesAlong ds starts update c =
      Piece.operand (ds.set c ⟨(sliceDim ds c).start, starts.getD c 0, 1⟩) :: piece ::
        (if starts.getD c 0 + coord update c < (sliceDim ds c).limit then
          [Piece.operand (ds.set c ⟨starts.getD c 0 + coord update c, (sliceDim ds c).limit, 1⟩)] else []) ∧
      piece.eval u x = some t ∧ t.shape.set c 0 = (ds.map SliceDim.size).set c 0 ∧
        (coord t.shape c : Int) = min (coord update c : Int) ((sliceDim ds c).limit - starts.getD c 0) ∧
          ∀ k, Within t.shape k → t.read k = u.read k := by
  obtain ⟨hds, hok⟩ := forall₂_ok_iff.mp hok
  have hc := hreach.lt
  have hbegins := hreach.begins
  have hmeets := hreach.meets
  have hsizes : ∀ d < ds.length, d ≠ c → coord update d = (sliceDim ds d).size := by
    intro d hd hdc
    obtain ⟨hlow, hhigh⟩ := hreach.others d hd hdc
    have hsize := sizeEq_of_unit (hok d hd) (hstrides d hd)
    omega
  have hfit : ∀ t : Tensor α, t.shape.length = ds.length → (∀ d < ds.length, d ≠ c → coord t.shape d = coord update d) →
        t.shape.set c 0 = (ds.map SliceDim.size).set c 0 := by
    intro t hlen hcoord
    refine eq_of_coord (by simp [hlen]) fun d hd => ?_
    rw [length_set, hlen] at hd
    by_cases hdc : d = c
    · rw [hdc, coord_set_self (hlen.symm ▸ hc), coord_set_self (by rwa [length_map])]
    · rw [coord_set_of_ne hdc, coord_set_of_ne hdc, hcoord d hd hdc, hsizes d hd hdc, coord_map _ _ hd,
        ← sliceDim_eq_getElem]
  have hpieces : ∀ piece, (if starts.getD c 0 + coord update c ≤ (sliceDim ds c).limit ∧
      (sliceDim ds c).start ≤ starts.getD c 0 then [Piece.update]
      else if (sliceDim ds c).limit ≤ starts.getD c 0 + coord update c then [Piece.updateSlice
        (zipWith (fun (p : Int × Int) (q : Int × SliceDim) => ⟨p.1 - q.1, p.2 - q.1, q.2.stride⟩)
          (zip starts (ds.map SliceDim.limit)) (zip starts ds))]
      else if starts.getD c 0 ≤ (sliceDim ds c).start then [Piece.updateSlice
        (zipWith (fun (p : Int × Int) (q : Int × SliceDim) => ⟨p.1 - q.1, p.2 - q.1, q.2.stride⟩)
          (zip (ds.map SliceDim.start) (zipWith (· + ·) starts (update.map Int.ofNat)))
            (zip starts ds))]
      else []) = [piece] → piecesAlong ds starts update c =
        Piece.operand (ds.set c ⟨(sliceDim ds c).start, starts.getD c 0, 1⟩) :: piece ::
        (if starts.getD c 0 + coord update c < (sliceDim ds c).limit then
          [Piece.operand (ds.set c ⟨starts.getD c 0 + coord update c, (sliceDim ds c).limit, 1⟩)] else []) := by
    intro piece hpiece
    rw [piecesAlong]
    dsimp only
    rw [if_pos hbegins, hpiece, hstrides c hc]
    rfl
  by_cases hall : starts.getD c 0 + coord update c ≤ (sliceDim ds c).limit
  · refine ⟨.update, u, hpieces _ (if_pos ⟨hall, hbegins.le⟩), rfl, ?_, ?_, fun k _ => rfl⟩
    · exact hfit u (hu ▸ hupdate) fun d _ _ => by rw [hu]
    · rw [hu]
      omega
  · have hdims : ∀ d < ds.length, sliceDim (zipWith (fun (p : Int × Int) (q : Int × SliceDim) =>
        (⟨p.1 - q.1, p.2 - q.1, q.2.stride⟩ : SliceDim)) (zip starts (ds.map SliceDim.limit)) (zip starts ds)) d =
          ⟨0, (sliceDim ds d).limit - starts.getD d 0, 1⟩ := by
      intro d hd
      have hd' : d < starts.length := hstarts.symm ▸ hd
      rw [sliceDim_eq_getElem (by simp [hd, hd']), getElem_zipWith, getElem_zip, getElem_zip,
        getElem_map, ← sliceDim_eq_getElem hd, hstrides d hd, getD_eq_getElem _ _ hd', sub_self]
    have hlen : (zipWith (fun (p : Int × Int) (q : Int × SliceDim) =>
        (⟨p.1 - q.1, p.2 - q.1, q.2.stride⟩ : SliceDim)) (zip starts (ds.map SliceDim.limit))
          (zip starts ds)).length = ds.length := by simp [hstarts]
    generalize zipWith (fun (p : Int × Int) (q : Int × SliceDim) =>
        (⟨p.1 - q.1, p.2 - q.1, q.2.stride⟩ : SliceDim)) (zip starts (ds.map SliceDim.limit))
          (zip starts ds) = dims at hdims hlen hpieces
    have hlimits : ∀ d < ds.length, 0 ≤ (sliceDim ds d).limit - starts.getD d 0 ∧
        (sliceDim ds d).limit - starts.getD d 0 ≤ coord update d ∧
          (d ≠ c → (sliceDim ds d).limit - starts.getD d 0 = coord update d) := by
      intro d hd
      by_cases hdc : d = c
      · rw [hdc]
        exact ⟨by omega, by omega, fun h => absurd rfl h⟩
      · have hother := (hreach.others d hd hdc).2
        exact ⟨by omega, by omega, fun _ => by omega⟩
    obtain ⟨t, ht⟩ : ∃ t, slice dims u = some t := exists_slice (by rw [hlen, hu, hupdate]) fun d hd => by
      have hd' : d < ds.length := hlen ▸ hd
      obtain ⟨hpos, hle, -⟩ := hlimits d hd'
      rw [hdims d hd', hu]
      exact ⟨le_rfl, hpos, hle, Int.one_pos⟩
    obtain ⟨-, -, -, hread⟩ := read_slice ht
    have hcoord : ∀ d < ds.length, (coord t.shape d : Int) = (sliceDim ds d).limit - starts.getD d 0 := by
      intro d hd
      obtain ⟨hpos, -⟩ := hlimits d hd
      rw [coord_slice ht (hlen.symm ▸ hd), hdims d hd, SliceDim.size]
      change (Int.toNat (((sliceDim ds d).limit - starts.getD d 0 - 0 + 1 - 1) / 1) : Int) = _
      rw [sub_zero, Int.ediv_one, add_sub_cancel_right, Int.toNat_of_nonneg hpos]
    refine ⟨.updateSlice dims, t, hpieces _ ?_, ht, ?_, ?_, fun k hk => ?_⟩
    · rw [if_neg fun h => hall h.1, if_pos (not_le.mp hall).le]
    · refine hfit t ((length_slice ht).trans hlen) fun d hd hdc => ?_
      have hsize := hcoord d hd
      rw [(hlimits d hd).2.2 hdc] at hsize
      exact_mod_cast hsize
    · rw [hcoord c hc]
      omega
    · rw [hread k hk]
      refine read_congr u fun d hd => ?_
      rw [hdims d (by rw [← hupdate, ← hu]; exact hd), SliceDim.source]
      change Int.toNat (0 + (k d : Int) * 1) = k d
      rw [zero_add, mul_one, Int.toNat_natCast]

theorem slicePlaced_pieces (hu : u.shape = update)
    (hx : x.shape = shape) : ∃ w, concatPieces u x c (piecesAlong ds starts update c) = some w ∧
      SlicePlaced (starts.getD · 0) u x ds w := by
  obtain ⟨piece, t, hpieces, hpiece, htfit, htsize, htread⟩ :=
    exists_updatePiece hok hstrides hstarts hupdate hreach u x hu
  obtain ⟨hds, hok⟩ := forall₂_ok_iff.mp hok
  have hc := hreach.lt
  have hbegins := hreach.begins
  have hmeets := hreach.meets
  beta_reduce at hbegins hmeets
  obtain ⟨hstart, hle, hlimit, -⟩ := hok c hc
  obtain ⟨first, hfirst⟩ := Int.eq_ofNat_of_zero_le hstart
  obtain ⟨last, hlast⟩ := Int.eq_ofNat_of_zero_le (hstart.trans hle)
  obtain ⟨a, ha⟩ := Int.eq_ofNat_of_zero_le (hstart.trans hbegins.le)
  have hsize := sizeEq_of_unit (hok c hc) (hstrides c hc)
  rw [hfirst, hlast] at hsize
  rw [hlast, ha] at htsize
  rw [hfirst, ha] at hbegins
  rw [hlast, ha] at hmeets
  rw [hlast] at hlimit
  rw [hfirst, hlast, ha] at hpieces
  have hfits : x.shape.set c 0 = shape.set c 0 := by rw [hx]
  have hothers : ∀ d < ds.length, d ≠ c → (sliceDim ds d).Ok (coord shape d) := fun d hd _ => hok d hd
  obtain ⟨t₁, ht₁, ht₁fit, ht₁size, ht₁read⟩ := slice_set (by rw [← hds]; exact hc) hds hothers hfits
    (a := first) (b := a) (by omega) (by rw [hx]; omega)
  -- what is after the update, if anything
  obtain ⟨rest, hrest, hrestFit, hrestTotal, hrestRead⟩ : ∃ rest : List (Tensor α),
      allSome ((if (a : Int) + coord update c < last then
        [Piece.operand (ds.set c ⟨a + coord update c, last, 1⟩)] else []).map (Piece.eval u x)) = some rest ∧
      FitTogether c (ds.map SliceDim.size) rest ∧ total c rest = last - (a + coord update c) ∧
        ∀ k, (∀ d < ds.length, d ≠ c → k d < (sliceDim ds d).size) → k c < total c rest → pieceAt c rest k =
          some (x.read (taken c (fun d => (sliceDim ds d).source) (a + coord update c + k c) k)) := by
    split
    · obtain ⟨t₃, ht₃, ht₃fit, ht₃size, ht₃read⟩ := slice_set (by rw [← hds]; exact hc) hds hothers hfits
        (a := a + coord update c) (b := last) (by omega) (by rw [hx]; omega)
      push_cast at ht₃
      refine ⟨[t₃], ?_, ?_, ?_, fun k hk hlt => ?_⟩
      · rw [map_cons, map_nil, Piece.eval, ht₃]
        rfl
      · exact forall_mem_singleton.mpr ht₃fit
      · rw [total_cons, total_nil, add_zero, ht₃size]
      · rw [total_cons, total_nil, add_zero] at hlt
        rw [pieceAt, if_pos hlt, ht₃read k hk (ht₃size ▸ hlt)]
    · refine ⟨[], rfl, forall_mem_nil _, ?_, fun k _ hlt => absurd hlt (Nat.not_lt_zero _)⟩
      rw [total_nil]
      omega
  have hpiecesFit : FitTogether c (ds.map SliceDim.size) (t₁ :: t :: rest) :=
    forall_mem_cons.mpr ⟨ht₁fit, forall_mem_cons.mpr ⟨htfit, hrestFit⟩⟩
  obtain ⟨w, hw, hwpieces⟩ := concatenate_pieces (by rwa [length_map]) (cons_ne_nil _ _) hpiecesFit
  have heval : concatPieces u x c (piecesAlong ds starts update c) = some w := by
    rw [concatPieces, hpieces, map_cons, map_cons, Piece.eval, ht₁, hpiece, allSome, allSome, hrest,
      map_some, map_some, bind_some, hw]
  have htotal : total c (t₁ :: t :: rest) = (sliceDim ds c).size := by
    rw [total_cons, total_cons, hrestTotal, ht₁size]
    omega
  have hshape : w.shape = ds.map SliceDim.size := by
    rw [hwpieces.shape_eq, htotal, sliceDim_eq_getElem hc, ← coord_map SliceDim.size ds hc,
      set_coord_self (by rwa [length_map])]
  refine ⟨w, heval, hshape, fun k hk => ?_⟩
  have hlt : ∀ d < ds.length, k d < (sliceDim ds d).size := by
    intro d hd
    have hlt := hk d (by rwa [hshape, length_map])
    rwa [hshape, coord_map _ _ hd, ← sliceDim_eq_getElem] at hlt
  have hsrc : ∀ d < ds.length, ((sliceDim ds d).source (k d) : Int) = (sliceDim ds d).start + k d := fun d hd =>
    sourceEq_of_unit (hok d hd) (hstrides d hd) (k d)
  have hsourceC := hsrc c hc
  rw [hfirst] at hsourceC
  have hltC := hlt c hc
  have hread := read_concatenate hw hk
  have htaken : ∀ j : Nat, (j : Int) = first + k c → (x.read (taken c (fun d => (sliceDim ds d).source) j k)) =
      x.read fun d => (sliceDim ds d).source (k d) := by
    intro j hj
    refine read_congr x fun d _ => ?_
    rw [taken]
    split
    · rename_i hdc
      rw [hdc]
      omega
    · rfl
  have hmiss : ¬((a : Int) ≤ (sliceDim ds c).source (k c) ∧ ((sliceDim ds c).source (k c) : Int) < a + coord update c) →
      ¬Inside x.shape.length u.shape (starts.getD · 0) fun d => (sliceDim ds d).source (k d) := by
    intro hout hinside
    rw [hu] at hinside
    have hin := hinside c (by rw [hx, ← hds]; exact hc)
    beta_reduce at hin
    rw [ha] at hin
    exact hout hin
  rw [pieceAt, pieceAt, ht₁size] at hread
  by_cases hbefore : k c < a - first
  · rw [if_pos hbefore, ht₁read k (fun d hd _ => hlt d hd) hbefore, htaken _ (by push_cast; rfl)] at hread
    rw [some.inj hread, placed, if_neg (hmiss (by omega))]
  · rw [if_neg hbefore, update_self] at hread
    by_cases hin : k c - (a - first) < coord t.shape c
    · rw [if_pos hin] at hread
      have hwithin : Within t.shape (Function.update k c (k c - (a - first))) := by
        intro d hd
        by_cases hdc : d = c
        · rw [hdc, update_self]
          exact hin
        · have hcoord := congrArg (coord · d) htfit
          have hd' : d < ds.length := by
            have hlengths := congrArg length htfit
            simp only [length_set, length_map] at hlengths
            omega
          rw [coord_set_of_ne hdc, coord_set_of_ne hdc, coord_map _ _ hd', ← sliceDim_eq_getElem] at hcoord
          rw [update_of_ne hdc, hcoord]
          exact hlt d hd'
      rw [htread _ hwithin] at hread
      rw [some.inj hread, placed, if_pos]
      · refine read_congr u fun d hd => ?_
        have hd' : d < ds.length := by rw [← hupdate, ← hu]; exact hd
        have hsourceD := hsrc d hd'
        by_cases hdc : d = c
        · rw [hdc, update_self]
          rw [ha]
          omega
        · rw [update_of_ne hdc]
          have hother := (hreach.others d hd' hdc).1
          beta_reduce at hother
          omega
      · intro d hd
        have hd' : d < ds.length := by rw [hds, ← hx]; exact hd
        have hsourceD := hsrc d hd'
        have hltD := hlt d hd'
        rw [hu]
        beta_reduce
        by_cases hdc : d = c
        · rw [hdc, ha]
          exact ⟨by omega, by omega⟩
        · obtain ⟨hlow, hhigh⟩ := hreach.others d hd' hdc
          have hsizeD := sizeEq_of_unit (hok d hd') (hstrides d hd')
          exact ⟨by omega, by omega⟩
    · have hafter : (a : Int) + coord update c ≤ first + k c := by omega
      rw [if_neg hin, update_idem, hrestRead] at hread
      · rw [update_self, taken_update, htaken _ (by omega)] at hread
        rw [some.inj hread, placed, if_neg (hmiss (by omega))]
      · intro d hd hdc
        rw [update_of_ne hdc]
        exact hlt d hd
      · rw [update_self, hrestTotal]
        omega

end

end

/-! ### Slices before the update -/

section

variable {slices : List (List SliceDim)} {shape update : List Nat} {starts : List StartIndex} {ss : List Int}
  {users : List (Option (List SliceDim))} {new : Simplified} {d : Nat}

def low (shape : List Nat) (slices : List (List SliceDim)) (d : Nat) : Int := (ignoredStart shape slices).getD d 0

def high (shape : List Nat) (slices : List (List SliceDim)) (d : Nat) : Int := (ignoredEnd shape slices).getD d 0

theorem foldl_zipWith (le : Int → Int → Prop) (key : SliceDim → Int) (hrefl : ∀ i, le i i)
    (htrans : ∀ {i j k}, le i j → le j k → le i k) {f : SliceDim → Int → Int}
    (hf : ∀ s i, le (f s i) i ∧ le (f s i) (key s) ∧ (f s i = i ∨ f s i = key s)) {ignored : List Int} {rank : Nat}
    (hignored : ignored.length = rank) (hslices : ∀ ds ∈ slices, ds.length = rank) {r : List Int}
    (hr : slices.foldl (fun ignored slice => zipWith f slice ignored) ignored = r) :
    r.length = rank ∧ ∀ d < rank, le (r.getD d 0) (ignored.getD d 0) ∧
      (∀ ds ∈ slices, le (r.getD d 0) (key (sliceDim ds d))) ∧
        ∀ P : Int → Prop, P (ignored.getD d 0) → (∀ ds ∈ slices, P (key (sliceDim ds d))) → P (r.getD d 0) := by
  induction slices generalizing ignored with
  | nil =>
    obtain rfl := hr
    exact ⟨hignored, fun d _ => ⟨hrefl _, fun ds hds => absurd hds not_mem_nil, fun _ h _ => h⟩⟩
  | cons slice slices ih =>
    obtain ⟨hslice, hslices⟩ := forall_mem_cons.mp hslices
    obtain ⟨hlen, hat⟩ := ih (by rw [length_zipWith, hslice, hignored, min_self]) hslices hr
    refine ⟨hlen, fun d hd => ?_⟩
    obtain ⟨hle, hall, hP⟩ := hat d hd
    have hfirst : (zipWith f slice ignored).getD d 0 = f (sliceDim slice d) (ignored.getD d 0) := by
      rw [getD_eq_getElem _ _ (by simp [hslice, hignored, hd]), getElem_zipWith,
        sliceDim_eq_getElem (hslice ▸ hd), getD_eq_getElem _ _ (hignored ▸ hd)]
    rw [hfirst] at hle hP
    obtain ⟨hinit, hkey, heq⟩ := hf (sliceDim slice d) (ignored.getD d 0)
    refine ⟨htrans hle hinit, forall_mem_cons.mpr ⟨htrans hle hkey, hall⟩, fun P hPinit hPall => ?_⟩
    obtain ⟨hPslice, hPall⟩ := forall_mem_cons.mp hPall
    refine hP P ?_ hPall
    rcases heq with heq | heq
    · rwa [heq]
    · rwa [heq]

/-- The box is inside of the tensor, and all slices are inside of it. -/
structure Box (slices : List (List SliceDim)) (shape : List Nat) : Prop where
  length_low : (ignoredStart shape slices).length = shape.length
  length_high : (ignoredEnd shape slices).length = shape.length
  low_nonneg : ∀ d < shape.length, 0 ≤ low shape slices d
  high_le : ∀ d < shape.length, high shape slices d ≤ coord shape d
  low_le : ∀ d < shape.length, ∀ ds ∈ slices, low shape slices d ≤ (sliceDim ds d).start
  le_high : ∀ d < shape.length, ∀ ds ∈ slices, (sliceDim ds d).limit ≤ high shape slices d

theorem box_of_ok (hslices : ∀ ds ∈ slices, Forall₂ SliceDim.Ok ds shape) : Box slices shape := by
  have hlengths : ∀ ds ∈ slices, ds.length = shape.length := fun ds hds => (hslices ds hds).length_eq
  have hok : ∀ d < shape.length, ∀ ds ∈ slices, (sliceDim ds d).Ok (coord shape d) := fun d hd ds hds =>
    (forall₂_ok_iff.mp (hslices ds hds)).2 d (hlengths ds hds ▸ hd)
  obtain ⟨hlow, hstart⟩ := foldl_zipWith (· ≤ ·) (·.start) le_refl le_trans (by grind)
    (length_map _) hlengths (rfl : _ = ignoredStart shape slices)
  obtain ⟨hhigh, hlimit⟩ := foldl_zipWith (· ≥ ·) (·.limit) le_refl ge_trans (by grind)
    (length_map _) hlengths (rfl : _ = ignoredEnd shape slices)
  refine ⟨hlow, hhigh, fun d hd => ?_, fun d hd => ?_, fun d hd => (hstart d hd).2.1, fun d hd => (hlimit d hd).2.1⟩
  · refine (hstart d hd).2.2 (0 ≤ ·) ?_ fun ds hds => (hok d hd ds hds).1
    rw [getD_eq_getElem _ _ (by rwa [length_map]), getElem_map]
    exact Int.natCast_nonneg _
  · refine (hlimit d hd).2.2 (· ≤ _) ?_ fun ds hds => (hok d hd ds hds).2.2.1
    rw [getD_eq_getElem _ _ (by rwa [length_map]), getElem_map]
    exact Int.natCast_nonneg _

/-- What the new ops are, dimension by dimension. -/
structure PreSliced (slices : List (List SliceDim)) (shape : List Nat) (start : Nat → Int) (update : List Nat)
    (new : Simplified) : Prop where
  nonempty : slices ≠ []
  length_operand : new.operand.length = shape.length
  length_update : new.update.length = shape.length
  length_starts : new.starts.length = shape.length
  operand_eq : ∀ d < shape.length, sliceDim new.operand d = ⟨low shape slices d, high shape slices d, 1⟩
  update_eq : ∀ d < shape.length, sliceDim new.update d =
    ⟨max 0 (low shape slices d - start d), min (coord update d) (high shape slices d - start d), 1⟩
  starts_eq : ∀ d < shape.length, new.starts.getD d 0 = max 0 (start d - low shape slices d)
  slices_eq : List.Forall₂ (fun ds ds' => ds'.length = shape.length ∧ ∀ d < shape.length, sliceDim ds' d =
    ⟨(sliceDim ds d).start - low shape slices d, (sliceDim ds d).start - low shape slices d + (sliceDim ds d).size,
      (sliceDim ds d).stride⟩) slices new.slices

theorem readAs_of_allSome {dusStart : List Int} (hstarts : starts.length = shape.length)
    (h : allSome (starts.map StartIndex.getSExtValue) = some dusStart) :
    dusStart.length = shape.length ∧ ReadAs starts shape.length (dusStart.getD · 0) := by
  have hall := allSome_map_iff.mp h
  refine ⟨hall.length_eq.symm.trans hstarts, fun d hd => ?_⟩
  have hd' : d < starts.length := hstarts.symm ▸ hd
  have hd'' : d < dusStart.length := hall.length_eq ▸ hd'
  beta_reduce
  rw [startAt, getD_eq_getElem _ _ hd', getD_eq_getElem _ _ hd'']
  exact (forall₂_iff_get.mp hall).2 d hd' hd''

theorem readAs_readAt {start : Nat → Int} (h : ReadAs starts shape.length start) (hd : d < shape.length) :
    readAt starts d = start d := by
  rw [readAt, h d hd, getD_some]

theorem preSliced_of_simplify (hslices : allSome users = some slices)
    (hok : ∀ ds ∈ slices, Forall₂ SliceDim.Ok ds shape) (hstarts : starts.length = shape.length)
    (hupdate : update.length = shape.length) (h : DUSSliceSimplify shape starts update users = some new) :
    ReadAs starts shape.length (readAt starts) ∧ PreSliced slices shape (readAt starts) update new := by
  have hbox := box_of_ok hok
  obtain ⟨slices', hslices', h⟩ := bind_eq_some_iff.mp h
  cases hslices.symm.trans hslices'
  dsimp only at h
  split_ifs at h with hempty hignored
  obtain ⟨dusStart, hdus, h⟩ := bind_eq_some_iff.mp h
  cases h
  obtain ⟨hlen, hreads⟩ := readAs_of_allSome hstarts hdus
  have hread : ∀ d < shape.length, readAt starts d = dusStart.getD d 0 := fun d hd => readAs_readAt hreads hd
  refine ⟨fun d hd => by rw [hread d hd]; exact hreads d hd, ?_⟩
  constructor
  · exact fun hnil => hempty (by rw [hnil]; rfl)
  · simp [hbox.length_low, hbox.length_high]
  · simp [hbox.length_low, hbox.length_high, hlen, hupdate]
  · simp [hbox.length_low, hlen]
  · intro d hd
    have hlow : d < (ignoredStart shape slices).length := hbox.length_low ▸ hd
    have hhigh : d < (ignoredEnd shape slices).length := hbox.length_high ▸ hd
    rw [sliceDim_eq_getElem (by simp [hlow, hhigh]), getElem_zipWith, low, high,
      getD_eq_getElem _ _ hlow, getD_eq_getElem _ _ hhigh]
  · intro d hd
    have hlow : d < (ignoredStart shape slices).length := hbox.length_low ▸ hd
    have hhigh : d < (ignoredEnd shape slices).length := hbox.length_high ▸ hd
    have hdus : d < dusStart.length := hlen ▸ hd
    have hsize : d < update.length := hupdate ▸ hd
    rw [sliceDim_eq_getElem (by simp [hlow, hhigh, hdus, hsize]), getElem_zipWith, getElem_zip,
      getElem_zip, low, high, hread d hd, getD_eq_getElem _ _ hlow, getD_eq_getElem _ _ hhigh,
      getD_eq_getElem _ _ hdus, coord_eq_getElem hsize]
    refine congrArg₂ (fun a b => SliceDim.mk a b 1) ?_ ?_
    · dsimp only
      split <;> omega
    · dsimp only
      split <;> omega
  · intro d hd
    have hlow : d < (ignoredStart shape slices).length := hbox.length_low ▸ hd
    have hdus : d < dusStart.length := hlen ▸ hd
    rw [getD_eq_getElem _ _ (by simp [hlow, hdus]), getElem_zipWith, low, hread d hd,
      getD_eq_getElem _ _ hlow, getD_eq_getElem _ _ hdus]
    split <;> omega
  · rw [forall₂_map_right_iff, forall₂_same]
    intro ds hds
    have hrank := (hok ds hds).length_eq
    refine ⟨by simp [hrank, hbox.length_low], fun d hd => ?_⟩
    have hlow : d < (ignoredStart shape slices).length := hbox.length_low ▸ hd
    have hd' : d < ds.length := hrank ▸ hd
    rw [sliceDim_eq_getElem (by simp [hlow, hd']), getElem_zipWith, low, getD_eq_getElem _ _ hlow,
      sliceDim_eq_getElem hd']

/-- Slices with strides are kept as they are only if they have no more than one element in the dimension. -/
def StridesOne (slices : List (List SliceDim)) (shape : List Nat) : Prop :=
  ∀ ds ∈ slices, ∀ d < shape.length, (sliceDim ds d).stride = 1 ∨ (sliceDim ds d).size ≤ 1

/-- The update is not beyond the box. -/
def Touches (slices : List (List SliceDim)) (shape : List Nat) (start : Nat → Int) (update : List Nat) : Prop :=
  ∀ d < shape.length, start d ≤ high shape slices d ∧ low shape slices d ≤ start d + coord update d

/-- The extent of a slice with a stride of as many elements as it has. -/
theorem size_again_iff {a stride : Int} (hstride : 0 < stride) :
    (SliceDim.mk a (a + n) stride).size = n ↔ stride = 1 ∨ n ≤ 1 := by
  constructor
  · intro h
    by_contra hnot
    obtain ⟨hne, hn⟩ := not_or.mp hnot
    have hlast := (SliceDim.lt_size_iff (d := ⟨a, a + n, stride⟩) (k := n - 1) hstride).mp (by rw [h]; omega)
    dsimp only at hlast
    have hle : ((n - 1 : Nat) : Int) * 2 ≤ (n - 1 : Nat) * stride :=
      mul_le_mul_of_nonneg_left (by omega) (Int.natCast_nonneg _)
    omega
  · rintro (rfl | hn)
    · rw [SliceDim.size_of_unit rfl]
      dsimp only
      omega
    · refine SliceDim.size_eq_of_lt_iff hstride fun k => ?_
      dsimp only
      constructor
      · intro hlt
        have hpos : 0 ≤ (k : Int) * stride := mul_nonneg (Int.natCast_nonneg k) hstride.le
        by_contra hge
        have hmul : (1 : Int) * 1 ≤ k * stride := mul_le_mul (by omega) (by omega) (by omega) (by omega)
        omega
      · intro hlt
        obtain rfl : k = 0 := by omega
        rw [Nat.cast_zero, zero_mul]
        omega

section

variable {α : Type} {start : Nat → Int} {u x y : Tensor α}

theorem touches_of_eval (hnew : PreSliced slices shape start update new) (hu : u.shape = update)
    (hy : slice new.update u = some y) : Touches slices shape start update := by
  obtain ⟨-, -, hok, -⟩ := read_slice hy
  intro d hd
  have hdim := hok d (hnew.length_update.symm ▸ hd)
  rw [hnew.update_eq d hd, hu] at hdim
  obtain ⟨-, hle, -, -⟩ := hdim
  dsimp only at hle
  omega

theorem exists_newDus (hok : ∀ ds ∈ slices, Forall₂ SliceDim.Ok ds shape) (hupdate : update.length = shape.length)
    (hnew : PreSliced slices shape start update new) (htouches : Touches slices shape start update)
    (hu : u.shape = update) (hx : x.shape = shape) : ∃ preSliceOperand preSliceUpdate newDus,
      slice new.operand x = some preSliceOperand ∧ slice new.update u = some preSliceUpdate ∧
      dynamicUpdateSlice new.starts preSliceUpdate preSliceOperand = some newDus ∧
      newDus.shape.length = shape.length ∧
      (∀ d < shape.length, (coord newDus.shape d : Int) = high shape slices d - low shape slices d) ∧
      ∀ p, Within newDus.shape p → newDus.read p = placed start u x fun d => (low shape slices d + p d).toNat := by
  have hbox := box_of_ok hok
  -- some slice is inside of the box
  obtain ⟨ds, hds⟩ := exists_mem_of_ne_nil _ hnew.nonempty
  have hle : ∀ d < shape.length, low shape slices d ≤ high shape slices d := fun d hd =>
    (hbox.low_le d hd ds hds).trans
      (((forall₂_ok_iff.mp (hok ds hds)).2 d ((hok ds hds).length_eq ▸ hd)).2.1.trans (hbox.le_high d hd ds hds))
  obtain ⟨o, ho⟩ : ∃ o, slice new.operand x = some o := exists_slice (hnew.length_operand.trans (congrArg _ hx.symm))
    fun d hd => by
      have hd' : d < shape.length := hnew.length_operand ▸ hd
      rw [hnew.operand_eq d hd', hx]
      exact ⟨hbox.low_nonneg d hd', hle d hd', hbox.high_le d hd', Int.one_pos⟩
  obtain ⟨v, hv⟩ : ∃ v, slice new.update u = some v := exists_slice
    (hnew.length_update.trans (hupdate.symm.trans (congrArg _ hu.symm))) fun d hd => by
      have hd' : d < shape.length := hnew.length_update ▸ hd
      have hmeets := htouches d hd'
      have hbounds := hle d hd'
      rw [hnew.update_eq d hd', hu]
      exact ⟨by dsimp only; omega, by dsimp only; omega, by dsimp only; omega, Int.one_pos⟩
  obtain ⟨-, -, -, horead⟩ := read_slice ho
  obtain ⟨-, -, -, hvread⟩ := read_slice hv
  have horank : o.shape.length = shape.length := (length_slice ho).trans hnew.length_operand
  have hvrank : v.shape.length = shape.length := (length_slice hv).trans hnew.length_update
  have hosize : ∀ d < shape.length, (coord o.shape d : Int) = high shape slices d - low shape slices d := by
    intro d hd
    have hbounds := hle d hd
    rw [coord_slice ho (hnew.length_operand.symm ▸ hd), hnew.operand_eq d hd, SliceDim.size_of_unit rfl]
    dsimp only
    omega
  have hvsize : ∀ d < shape.length, (coord v.shape d : Int) =
      min (coord update d : Int) (high shape slices d - start d) - max 0 (low shape slices d - start d) := by
    intro d hd
    have hmeets := htouches d hd
    have hbounds := hle d hd
    rw [coord_slice hv (hnew.length_update.symm ▸ hd), hnew.update_eq d hd, SliceDim.size_of_unit rfl]
    dsimp only
    omega
  obtain ⟨t, ht⟩ : ∃ t, dynamicUpdateSlice new.starts v o = some t := by
    refine ⟨_, if_pos ⟨hnew.length_starts.trans horank.symm, forall₂_iff_get.mpr
      ⟨hvrank.trans horank.symm, fun d hd hd' => ?_⟩⟩⟩
    have hd'' : d < shape.length := hvrank ▸ hd
    have hoc := hosize d hd''
    have hvc := hvsize d hd''
    rw [get_eq_getElem, get_eq_getElem, ← coord_eq_getElem hd, ← coord_eq_getElem hd']
    omega
  obtain ⟨-, htshape, -⟩ := read_dynamicUpdateSlice ht
  refine ⟨o, v, t, ho, hv, ht, by rw [htshape, horank], fun d hd => by rw [htshape, hosize d hd], fun p hp => ?_⟩
  rw [htshape] at hp
  -- the new update is where its start says
  have hclamp : ∀ d < shape.length, clamped o.shape v.shape new.starts d = max 0 (start d - low shape slices d) := by
    intro d hd
    have hoc := hosize d hd
    have hvc := hvsize d hd
    rw [clamped, hnew.starts_eq d hd, clampStart]
    omega
  have hsrc : ∀ d < shape.length, ((sliceDim new.operand d).source (p d) : Int) = low shape slices d + p d := by
    intro d hd
    have hpos := hbox.low_nonneg d hd
    rw [hnew.operand_eq d hd, SliceDim.source, mul_one]
    dsimp only
    omega
  have hpc : ∀ d < shape.length, (p d : Int) < high shape slices d - low shape slices d := fun d hd => by
    have hlt := hp d (horank.symm ▸ hd)
    rw [← hosize d hd]
    exact_mod_cast hlt
  have hiff : Inside o.shape.length v.shape (clamped o.shape v.shape new.starts) p ↔
      Inside x.shape.length u.shape start fun d => (low shape slices d + p d).toNat := by
    rw [horank, hx, hu]
    refine forall₂_congr fun d hd => ?_
    have hpos := hbox.low_nonneg d hd
    have hlt := hpc d hd
    have hvc := hvsize d hd
    have hmeets := htouches d hd
    rw [hclamp d hd]
    beta_reduce
    omega
  rw [read_update ht hp, placed, placed]
  by_cases hinside : Inside x.shape.length u.shape start fun d => (low shape slices d + p d).toNat
  · rw [if_pos (hiff.mpr hinside), if_pos hinside, hvread _ fun d hd => ?_]
    · refine read_congr u fun d hd => ?_
      have hd' : d < shape.length := by rwa [← hupdate, ← hu]
      have hlow := (hinside d (hx.symm ▸ hd')).1
      beta_reduce at hlow
      rw [hnew.update_eq d hd', hclamp d hd', SliceDim.source, mul_one]
      dsimp only
      have hpos := hbox.low_nonneg d hd'
      omega
    · have hd' : d < shape.length := hvrank ▸ hd
      obtain ⟨hlow, hlast⟩ := hinside d (hx.symm ▸ hd')
      have hlt := hpc d hd'
      have hvc := hvsize d hd'
      have hpos := hbox.low_nonneg d hd'
      rw [hu] at hlast
      beta_reduce at hlow hlast
      rw [hclamp d hd']
      omega
  · rw [if_neg fun h => hinside (hiff.mp h), if_neg hinside, horead p hp]
    refine read_congr x fun d hd => ?_
    have hd' : d < shape.length := hx ▸ hd
    have hsrc := hsrc d hd'
    omega

theorem eval_eq (new : Simplified) {o v t : Tensor α} (ho : slice new.operand x = some o)
    (hv : slice new.update u = some v) (ht : dynamicUpdateSlice new.starts v o = some t) :
    new.eval u x = allSome (new.slices.map fun ds => slice ds t) := by
  rw [Simplified.eval, ho, hv]
  dsimp only [bind_eq_bind, bind_some]
  rw [ht, bind_some]

theorem slicesPlaced_simplified (hok : ∀ ds ∈ slices, Forall₂ SliceDim.Ok ds shape)
    (hupdate : update.length = shape.length) (hnew : PreSliced slices shape start update new)
    (htouches : Touches slices shape start update) (hstrides : StridesOne slices shape) (hu : u.shape = update)
    (hx : x.shape = shape) : ∃ ws, new.eval u x = some ws ∧ Forall₂ (SlicePlaced start u x) slices ws := by
  have hbox := box_of_ok hok
  obtain ⟨o, v, t, ho, hv, ht, htrank, htsize, htread⟩ := exists_newDus hok hupdate hnew htouches hu hx
  have hplaced : ∀ ds ∈ slices, ∀ ds' : List SliceDim, (ds'.length = shape.length ∧ ∀ d < shape.length,
      sliceDim ds' d = ⟨(sliceDim ds d).start - low shape slices d,
        (sliceDim ds d).start - low shape slices d + (sliceDim ds d).size, (sliceDim ds d).stride⟩) →
      ∃ w, slice ds' t = some w ∧ SlicePlaced start u x ds w := by
    rintro ds hds ds' ⟨hlen, hdims⟩
    obtain ⟨hrank, hdsOk⟩ := forall₂_ok_iff.mp (hok ds hds)
    have hfits : ∀ d < shape.length, (sliceDim ds d).start + (sliceDim ds d).size ≤ high shape slices d := by
      intro d hd
      obtain ⟨-, hle, -, hstride⟩ := hdsOk d (hrank.symm ▸ hd)
      have hhigh := hbox.le_high d hd ds hds
      rcases eq_zero_or_pos (sliceDim ds d).size with hzero | hpos
      · rw [hzero]
        omega
      · have hlast := (SliceDim.lt_size_iff (k := (sliceDim ds d).size - 1) hstride).mp (by omega)
        have hmul : (((sliceDim ds d).size - 1 : Nat) : Int) * 1 ≤ ((sliceDim ds d).size - 1 : Nat) *
            (sliceDim ds d).stride := mul_le_mul_of_nonneg_left hstride (Int.natCast_nonneg _)
        omega
    obtain ⟨w, hw⟩ : ∃ w, slice ds' t = some w := exists_slice (hlen.trans htrank.symm) fun d hd => by
      have hd' : d < shape.length := hlen ▸ hd
      have hlow := hbox.low_le d hd' ds hds
      have hhigh := hfits d hd'
      have hsize := htsize d hd'
      rw [hdims d hd']
      refine ⟨by dsimp only; omega, by dsimp only; omega, by dsimp only; omega, ?_⟩
      exact (hdsOk d (hrank.symm ▸ hd')).2.2.2
    obtain ⟨-, hwshape, hds'Ok, hread⟩ := read_slice hw
    have hsizes : w.shape = ds.map SliceDim.size := by
      refine eq_of_coord (by rw [length_slice hw, hlen, length_map, hrank]) fun d hd => ?_
      rw [length_slice hw] at hd
      have hd' : d < shape.length := hlen ▸ hd
      have hd'' : d < ds.length := hrank.symm ▸ hd'
      rw [coord_slice hw hd, hdims d hd', coord_map _ _ hd'', ← sliceDim_eq_getElem,
        (size_again_iff (hdsOk d hd'').2.2.2).mpr (hstrides ds hds d hd')]
    refine ⟨w, hw, hsizes, fun c hc => ?_⟩
    rw [hread c hc, htread _ (within_source hw hc)]
    refine placed_congr_pos (fun d hd => ?_) (by rw [hu, hx, hupdate])
    have hd' : d < shape.length := hx ▸ hd
    have hok' := hds'Ok d (hlen.symm ▸ hd')
    have hsrc := SliceDim.source_of_ok (hdsOk d (hrank.symm ▸ hd')) (c d)
    have hsrc' := SliceDim.source_of_ok hok' (c d)
    rw [hdims d hd'] at hsrc' ⊢
    dsimp only at hsrc'
    omega
  -- each of the new slices is one of the old ones
  have hnewSlices := forall₂_iff_get.mp hnew.slices_eq
  have hevals : ∀ i (hi : i < slices.length) (hi' : i < new.slices.length),
      ∃ w, slice new.slices[i] t = some w ∧ SlicePlaced start u x slices[i] w := fun i hi hi' =>
    hplaced _ (getElem_mem hi) _ (hnewSlices.2 i hi hi')
  obtain ⟨ws, hws⟩ : ∃ ws, allSome (new.slices.map fun ds => slice ds t) = some ws := by
    refine exists_allSome_iff.mpr fun a ha => ?_
    obtain ⟨ds', hds', rfl⟩ := mem_map.mp ha
    obtain ⟨i, hi, rfl⟩ := getElem_of_mem hds'
    obtain ⟨w, hw, -⟩ := hevals i (hnewSlices.1.symm ▸ hi) hi
    exact ⟨w, hw⟩
  have hall := forall₂_iff_get.mp (allSome_map_iff.mp hws)
  refine ⟨ws, (eval_eq new ho hv ht).trans hws, forall₂_iff_get.mpr ⟨hnewSlices.1.trans hall.1, fun i hi hiw => ?_⟩⟩
  have hi' : i < new.slices.length := hnewSlices.1 ▸ hi
  obtain ⟨w, hw, hwplaced⟩ := hevals i hi hi'
  cases hw.symm.trans (hall.2 i hi' hiw)
  exact hwplaced

/-- The new ops are right if and only if they keep what the slices take, and the update is there or not sliced. -/
theorem simplified_iff [Nontrivial α] (hok : ∀ ds ∈ slices, Forall₂ SliceDim.Ok ds shape)
    (hstarts : starts.length = shape.length) (hfits : Forall₂ (· ≤ ·) update shape)
    (hvalues : ∃ ss, HaveValues starts ss) (hreads : ReadAs starts shape.length start)
    (hnew : PreSliced slices shape start update new) :
    Preserves α slices shape update starts (fun u x => new.eval u x) ↔
      StridesOne slices shape ∧ Touches slices shape start update ∧
        (InRange shape update starts ∨ ∀ ds ∈ slices, Missed ds shape update starts) := by
  have hupdate := hfits.length_eq
  have hright : StridesOne slices shape → Touches slices shape start update →
      (Preserves α slices shape update starts (fun u x => new.eval u x) ↔
        InRange shape update starts ∨ ∀ ds ∈ slices, Missed ds shape update starts) := fun hstrides htouches =>
    preserves_iff_placed hreads hstarts hfits hvalues hok fun u x hu hx =>
      slicesPlaced_simplified hok hupdate hnew htouches hstrides hu hx
  suffices hsome : Preserves α slices shape update starts (fun u x => new.eval u x) →
      StridesOne slices shape ∧ Touches slices shape start update by
    constructor
    · intro h
      obtain ⟨hstrides, htouches⟩ := hsome h
      exact ⟨hstrides, htouches, (hright hstrides htouches).mp h⟩
    · rintro ⟨hstrides, htouches, h⟩
      exact (hright hstrides htouches).mpr h
  intro h
  obtain ⟨ss, hss⟩ := hvalues
  obtain ⟨a⟩ : Nonempty α := inferInstance
  obtain ⟨y, hy⟩ : ∃ y, dynamicUpdateSlice ss (splat update a) (splat shape a) = some y :=
    ⟨_, if_pos ⟨by rw [hss.1, hstarts]; rfl, hfits⟩⟩
  have hyshape : y.shape = shape := (read_dynamicUpdateSlice hy).2.1
  obtain ⟨zs, hzs⟩ : ∃ zs, allSome (slices.map fun ds => slice ds y) = some zs :=
    exists_slices fun ds hds => hyshape.symm ▸ hok ds hds
  obtain ⟨ws, hws, hsame⟩ := h ss _ _ y zs hss rfl rfl hy hzs
  obtain ⟨o, ho, hws⟩ := bind_eq_some_iff.mp hws
  obtain ⟨v, hv, hws⟩ := bind_eq_some_iff.mp hws
  obtain ⟨t, ht, hws⟩ := bind_eq_some_iff.mp hws
  refine ⟨fun ds hds d hd => ?_, touches_of_eval hnew rfl hv⟩
  obtain ⟨hrank, hdsOk⟩ := forall₂_ok_iff.mp (hok ds hds)
  have hd' : d < ds.length := hrank.symm ▸ hd
  obtain ⟨i, hi, rfl⟩ := getElem_of_mem hds
  have hnewSlices := forall₂_iff_get.mp hnew.slices_eq
  have hi' : i < new.slices.length := hnewSlices.1 ▸ hi
  have hnewEvals := forall₂_iff_get.mp (allSome_map_iff.mp hws)
  have hevals := forall₂_iff_get.mp (allSome_map_iff.mp hzs)
  have hiw : i < ws.length := hnewEvals.1 ▸ hi'
  have hiz : i < zs.length := hevals.1 ▸ hi
  obtain ⟨hlen, hdims⟩ := hnewSlices.2 i hi hi'
  have hsize := coord_slice (hnewEvals.2 i hi' hiw) (d := d) (by rw [hlen]; exact hd)
  rw [((forall₂_iff_get.mp hsame).2 i hiw hiz).shape_eq, coord_slice (hevals.2 i hi hiz) hd', hdims d hd] at hsize
  exact (size_again_iff (hdsOk d hd').2.2.2).mp hsize.symm

end

end

/-! ### Exactly when the slices are right -/

section

variable {α : Type} {ds : List SliceDim} {shape update : List Nat} {starts : List StartIndex} {start : Nat → Int}

variable {new : Tensor α → Tensor α → Option (Tensor α)}

theorem preserves_singleton_iff : Preserves α [ds] shape update starts (fun u x => (new u x).map ([·])) ↔
      ∀ (ss : List Int) (x u y z : Tensor α), HaveValues starts ss → x.shape = shape → u.shape = update →
        dynamicUpdateSlice ss u x = some y → slice ds y = some z → ∃ w, new u x = some w ∧ Same w z := by
  constructor
  · intro h ss x u y z hss hx hu hy hz
    obtain ⟨ws, hws, hsame⟩ := h ss x u y [z] hss hx hu hy (by rw [map_singleton, hz]; rfl)
    obtain ⟨w, hw, rfl⟩ := map_eq_some_iff.mp hws
    exact ⟨w, hw, (forall₂_cons.mp hsame).1⟩
  · intro h ss x u y zs hss hx hu hy hzs
    obtain ⟨z, zs', hz, hnil, rfl⟩ := forall₂_cons_left_iff.mp (allSome_map_iff.mp hzs)
    obtain rfl := forall₂_nil_left_iff.mp hnil
    obtain ⟨w, hw, hsame⟩ := h ss x u y z hss hx hu hy hz
    exact ⟨[w], map_eq_some_iff.mpr ⟨w, hw, rfl⟩, .cons hsame .nil⟩

theorem preserves_one_iff [Nontrivial α] (hv : Verified ds shape update starts)
    (hreads : ReadAs starts shape.length start)
    (hnew : ∀ u x : Tensor α, u.shape = update → x.shape = shape → ∃ w, new u x = some w ∧ SlicePlaced start u x ds w) :
    Preserves α [ds] shape update starts (fun u x => (new u x).map ([·])) ↔
      InRange shape update starts ∨ Missed ds shape update starts := by
  rw [preserves_iff_placed hreads hv.length_starts hv.update_le hv.values (forall_mem_singleton.mpr hv.slice_ok)
    fun u x hu hx => ?_]
  · rw [forall_mem_singleton]
  · obtain ⟨w, hw, hplaced⟩ := hnew u x hu hx
    exact ⟨[w], map_eq_some_iff.mpr ⟨w, hw, rfl⟩, .cons hplaced .nil⟩

/-- When the slice of the update, or of the operand, is that of both. -/
def NewSlice.Right (ds : List SliceDim) (shape update : List Nat) (starts : List StartIndex) : NewSlice → Prop
  | .update _ => InRange shape update starts ∨ Missed ds shape update starts
  | .operand _ => InRange shape update starts ∨ Apart ds shape update starts

theorem SliceOfDynamicUpdate_right_iff [Nontrivial α] {new : NewSlice} (hv : Verified ds shape update starts)
    (h : SliceOfDynamicUpdate ds starts update = some new) :
    Preserves α [ds] shape update starts (fun u x => (new.eval u x).map ([·])) ↔ new.Right ds shape update starts := by
  have hds := hv.slice_ok.length_eq
  have hstarts := hv.length_starts.trans hds.symm
  have hupdate := hv.update_le.length_eq.trans hds.symm
  rw [SliceOfDynamicUpdate] at h
  split at h
  · rename_i dims hdims
    cases h
    exact preserves_one_iff hv
      (fun d hd => (insideUpdate_eq_some hstarts hupdate hdims).2 d (hds.symm ▸ hd) |>.1)
      fun u x hu hx => slicePlaced_insideUpdate hv.slice_ok hstarts hupdate hdims hu hx
  · split_ifs at h with hover
    cases h
    rw [noOverlap_eq, Bool.not_eq_true'] at hover
    exact preserves_singleton_iff.trans (mayRead_right_iff hv hover)

theorem SliceDUSToConcat_right_iff [Nontrivial α] {dim : Nat} {pieces : List Piece}
    (hv : Verified ds shape update starts) (h : SliceDUSToConcat ds starts update = some (dim, pieces)) :
    Preserves α [ds] shape update starts (fun u x => (concatPieces u x dim pieces).map ([·])) ↔
      InRange shape update starts ∨ Missed ds shape update starts := by
  have hds := hv.slice_ok.length_eq
  obtain ⟨dusStarts, hdus, h⟩ := bind_eq_some_iff.mp h
  obtain ⟨hlen, hreads⟩ := readAs_of_allSome hv.length_starts hdus
  split_ifs at h with hstrides
  obtain ⟨found, hfound, h⟩ := bind_eq_some_iff.mp h
  obtain ⟨c, rfl, h⟩ := bind_eq_some_iff.mp h
  cases some.inj h
  have hunit : ∀ d < ds.length, (sliceDim ds d).stride = 1 := by
    intro d hd
    by_contra hne
    rw [sliceDim_eq_getElem hd] at hne
    exact hstrides (any_eq_true.mpr ⟨ds[d], getElem_mem hd, decide_eq_true hne⟩)
  have hstarts := hlen.trans hds.symm
  have hupdate := hv.update_le.length_eq.trans hds.symm
  rcases findConcatDim_eq_some hstarts hupdate hfound with ⟨hnone, -⟩ | ⟨-, c', hc', hreach⟩
  · cases hnone
  · rw [zero_add] at hc'
    cases hc'
    exact preserves_one_iff hv hreads fun u x hu hx =>
      slicePlaced_pieces hv.slice_ok hunit hstarts hupdate hreach hu hx

theorem DUSSliceSimplify_right_iff [Nontrivial α] {users : List (Option (List SliceDim))}
    {slices : List (List SliceDim)} {new : Simplified} (husers : allSome users = some slices)
    (hv : ∀ ds ∈ slices, Verified ds shape update starts) (h : DUSSliceSimplify shape starts update users = some new) :
    Preserves α slices shape update starts (fun u x => new.eval u x) ↔
      StridesOne slices shape ∧ Touches slices shape (readAt starts) update ∧
        (InRange shape update starts ∨ ∀ ds ∈ slices, Missed ds shape update starts) := by
  have hok : ∀ ds ∈ slices, Forall₂ SliceDim.Ok ds shape := fun ds hds => (hv ds hds).slice_ok
  obtain ⟨ds, hds⟩ : ∃ ds, ds ∈ slices := by
    refine exists_mem_of_ne_nil _ fun hnil => ?_
    obtain ⟨slices', hslices', h⟩ := bind_eq_some_iff.mp h
    cases husers.symm.trans hslices'
    rw [hnil] at h
    cases h
  obtain ⟨-, hstarts, hfits, hvalues⟩ := hv ds hds
  obtain ⟨hreads, hnew⟩ := preSliced_of_simplify husers hok hstarts hfits.length_eq h
  exact simplified_iff hok hstarts hfits hvalues hreads hnew

/-- Exactly when the slices of an updated tensor are replaced by what they are. -/
theorem slicesOfUpdates_right_iff [Nontrivial α] :
    (∀ (ds : List SliceDim) (shape update : List Nat) (starts : List StartIndex),
      Verified ds shape update starts → (∀ new, SliceOfDynamicUpdate ds starts update = some new →
          (Preserves α [ds] shape update starts (fun u x => (new.eval u x).map ([·])) ↔
            new.Right ds shape update starts)) ∧
        ∀ dim pieces, SliceDUSToConcat ds starts update = some (dim, pieces) →
          (Preserves α [ds] shape update starts (fun u x => (concatPieces u x dim pieces).map ([·])) ↔
            InRange shape update starts ∨ Missed ds shape update starts)) ∧
    ∀ (shape update : List Nat) (starts : List StartIndex) (users : List (Option (List SliceDim)))
      (slices : List (List SliceDim)) (new : Simplified), allSome users = some slices →
        (∀ ds ∈ slices, Verified ds shape update starts) → DUSSliceSimplify shape starts update users = some new →
          (Preserves α slices shape update starts (fun u x => new.eval u x) ↔
            StridesOne slices shape ∧ Touches slices shape (readAt starts) update ∧
              (InRange shape update starts ∨ ∀ ds ∈ slices, Missed ds shape update starts)) :=
  ⟨fun _ _ _ _ hv => ⟨fun _ h => SliceOfDynamicUpdate_right_iff hv h, fun _ _ h => SliceDUSToConcat_right_iff hv h⟩,
    fun _ _ _ _ _ _ husers hv h => DUSSliceSimplify_right_iff husers hv h⟩

end

/-! ### An update of two of eight elements -/

theorem verified_eight {n : Int} (hs : s.Ok 8) (hn : IntType.wrap ⟨64, false⟩ n = n) :
    Verified [s] [8] [2] [.constant ⟨64, false⟩ n] := verified_pair hs (by decide) hn

theorem inRange_three : InRange [8] [2] [.constant ⟨64, false⟩ 3] := by
  intro d hd start hstart
  obtain rfl := Nat.lt_one_iff.mp hd
  cases hstart
  exact ⟨by decide, by decide⟩

/-- Of an update at 3, a slice inside of it, one that begins before it, and one that it is not in. -/
theorem slicesOfUpdates_right_iff_three :
    Preserves Bool [[⟨3, 5, 1⟩]] [8] [2] [.constant ⟨64, false⟩ 3]
      (fun u x => (NewSlice.eval u x (.update [⟨0, 2, 1⟩])).map ([·])) ∧
    Preserves Bool [[⟨2, 4, 1⟩]] [8] [2] [.constant ⟨64, false⟩ 3]
      (fun u x => (concatPieces u x 0 [.operand [⟨2, 3, 1⟩], .updateSlice [⟨0, 1, 1⟩]]).map ([·])) ∧
    Preserves Bool [[⟨5, 7, 1⟩]] [8] [2] [.constant ⟨64, false⟩ 3]
      (fun u x => Simplified.eval u x ⟨[⟨5, 7, 1⟩], [⟨2, 2, 1⟩], [0], [[⟨0, 2, 1⟩]]⟩) := by
  refine ⟨?_, ?_, ?_⟩
  · have hv : Verified [⟨3, 5, 1⟩] [8] [2] [.constant ⟨64, false⟩ 3] := verified_eight (by decide) (by decide)
    exact (((slicesOfUpdates_right_iff (α := Bool)).1 _ _ _ _ hv).1 (.update [⟨0, 2, 1⟩]) rfl).mpr (.inl inRange_three)
  · have hv : Verified [⟨2, 4, 1⟩] [8] [2] [.constant ⟨64, false⟩ 3] := verified_eight (by decide) (by decide)
    exact (((slicesOfUpdates_right_iff (α := Bool)).1 _ _ _ _ hv).2 0
      [.operand [⟨2, 3, 1⟩], .updateSlice [⟨0, 1, 1⟩]] rfl).mpr (.inl inRange_three)
  · refine ((slicesOfUpdates_right_iff (α := Bool)).2 [8] [2] [.constant ⟨64, false⟩ 3] [some [⟨5, 7, 1⟩]]
      [[⟨5, 7, 1⟩]] ⟨[⟨5, 7, 1⟩], [⟨2, 2, 1⟩], [0], [[⟨0, 2, 1⟩]]⟩ rfl ?_ rfl).mpr ⟨?_, ?_, .inl inRange_three⟩
    · exact forall_mem_singleton.mpr (verified_eight (by decide) (by decide))
    · refine forall_mem_singleton.mpr fun d hd => ?_
      obtain rfl := Nat.lt_one_iff.mp hd
      exact .inl rfl
    · intro d hd
      obtain rfl := Nat.lt_one_iff.mp hd
      decide

/-- Every other element of seven is sliced, of an update at 0. -/
theorem not_preserves_strided : Verified [⟨0, 7, 2⟩] [8] [2] [.constant ⟨64, false⟩ 0] ∧
    DUSSliceSimplify [8] [.constant ⟨64, false⟩ 0] [2] [some [⟨0, 7, 2⟩]] =
      some ⟨[⟨0, 7, 1⟩], [⟨0, 2, 1⟩], [0], [[⟨0, 4, 2⟩]]⟩ ∧
    ¬Preserves Bool [[⟨0, 7, 2⟩]] [8] [2] [.constant ⟨64, false⟩ 0]
      (fun u x => Simplified.eval u x ⟨[⟨0, 7, 1⟩], [⟨0, 2, 1⟩], [0], [[⟨0, 4, 2⟩]]⟩) := by
  have hv : Verified [⟨0, 7, 2⟩] [8] [2] [.constant ⟨64, false⟩ 0] := verified_eight (by decide) (by decide)
  refine ⟨hv, rfl, fun h => ?_⟩
  obtain ⟨hstrides, -, -⟩ := (DUSSliceSimplify_right_iff (rfl : allSome [some [⟨0, 7, 2⟩]] = some _)
    (forall_mem_singleton.mpr hv) rfl).mp h
  rcases hstrides _ (mem_singleton.mpr rfl) 0 (by decide) with hstride | hsize
  · exact absurd hstride (by decide)
  · exact absurd hsize (by decide)

end EnzymeJax.SlicesOfUpdates
