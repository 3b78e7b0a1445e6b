import EnzymeJax.Library.IntType
import EnzymeJax.Library.Reads

/-!
# Overlaps of slices and updates

Whether a slice may read what an update writes, and whether it reads nothing else, is told from the constant start
indices of the update, though an update out of bounds is moved into the tensor.
-/

namespace EnzymeJax.OverlapTests

open Tensor List Function

/-- A start index: a constant of an integer type, or a value that is known at run time. -/
inductive StartIndex
  | constant (type : IntType) (n : Int)
  | runtime

namespace StartIndex

/-- The constant, as it is read: signed, also if its type is not. -/
def getSExtValue : StartIndex → Option Int
  | constant type n => some (n.bmod (2 ^ type.width))
  | runtime => none

/-- The integers that the start index can be. -/
def Has : StartIndex → Int → Prop
  | constant type n, start => start = n ∧ type.wrap n = n
  | runtime, _ => True

end StartIndex

/-! ### The tests -/

def mayReadMemoryWrittenTo : List SliceDim → List StartIndex → List Nat → Bool
  | s :: slice, dstartv :: starts, n :: update =>
    match dstartv.getSExtValue with
    | none => mayReadMemoryWrittenTo slice starts update
    | some dstart =>
      let dlimit := dstart + n
      if s.limit ≤ dstart then false
      else if dlimit ≤ s.start then false
      else mayReadMemoryWrittenTo slice starts update
  | _, _, _ => true

def mustReadMemoryWrittenTo : List SliceDim → List StartIndex → List Nat → Bool
  | s :: slice, dstartv :: starts, n :: update =>
    match dstartv.getSExtValue with
    | none => false
    | some dstart =>
      let dlimit := dstart + n
      if s.start < dstart then false
      else if dlimit < s.limit then false
      else mustReadMemoryWrittenTo slice starts update
  | _, _, _ => true

/-! ### What the tests are to say -/

def startAt (starts : List StartIndex) (d : Nat) : StartIndex := starts.getD d .runtime

/-- Start indices that the update may have in a run. -/
def HaveValues (starts : List StartIndex) (ss : List Int) : Prop :=
  ss.length = starts.length ∧ ∀ d < starts.length, (startAt starts d).Has (ss.getD d 0)

/-- The update writes position `p` of the dimension. -/
def Writes (dim size : Nat) (start : Int) (p : Nat) : Prop :=
  clampStart dim size start ≤ p ∧ p < clampStart dim size start + size

instance (dim size : Nat) (start : Int) (p : Nat) : Decidable (Writes dim size start p) :=
  inferInstanceAs (Decidable (_ ∧ _))

/-- No constant start is out of bounds, as it is read. -/
def InRange (shape update : List Nat) (starts : List StartIndex) : Prop :=
  ∀ d < shape.length, ∀ start, (startAt starts d).getSExtValue = some start →
    0 ≤ start ∧ start + coord update d ≤ coord shape d

/-- There is a dimension of which the slice takes nothing that the update writes, wherever it may start. -/
def Apart (slice : List SliceDim) (shape update : List Nat) (starts : List StartIndex) : Prop :=
  ∃ d < shape.length, ∀ start, (startAt starts d).Has start → ∀ k < (sliceDim slice d).size,
    ¬Writes (coord shape d) (coord update d) start ((sliceDim slice d).source k)

/-- The slice has no elements, or takes only what the update writes of every dimension. -/
def Covered (slice : List SliceDim) (shape update : List Nat) (starts : List StartIndex) : Prop :=
  (∃ d < shape.length, (sliceDim slice d).size = 0) ∨
    ∀ d < shape.length, ∀ start, (startAt starts d).Has start → ∀ k < (sliceDim slice d).size,
      Writes (coord shape d) (coord update d) start ((sliceDim slice d).source k)

/-- Whatever the tensors are, the slice of the updated tensor is that of the operand. -/
def ReadsOperand (α : Type) (ds : List SliceDim) (shape update : List Nat) (starts : List StartIndex) : Prop :=
  ∀ (ss : List Int) (x u y z : Tensor α), HaveValues starts ss → x.shape = shape → u.shape = update →
    dynamicUpdateSlice ss u x = some y → slice ds y = some z → ∃ w, slice ds x = some w ∧ Same w z

/-- Whatever the operand is, the slice of the updated tensor is the same. -/
def ReadsUpdate (α : Type) (ds : List SliceDim) (shape update : List Nat) (starts : List StartIndex) : Prop :=
  ∀ (ss : List Int) (x x' u y y' z z' : Tensor α), HaveValues starts ss → x.shape = shape → x'.shape = shape →
    u.shape = update → dynamicUpdateSlice ss u x = some y → dynamicUpdateSlice ss u x' = some y' →
      slice ds y = some z → slice ds y' = some z' → Same z z'

section

variable {ds : List SliceDim} {starts : List StartIndex} {shape update : List Nat} {start : Int} {s : SliceDim}
  {dim size k p : Nat}

theorem eq_of_getSExtValue {d : StartIndex} {r : Int} (hd : d.Has start) (hr : d.getSExtValue = some r)
    (hpos : 0 ≤ r) : start = r := by
  cases d with
  | runtime => cases hr
  | constant type n =>
    obtain ⟨rfl, hn⟩ := hd
    cases hr
    obtain ⟨width, unsigned⟩ := type
    cases unsigned with
    | false => exact hn.symm
    | true =>
      obtain ⟨hlow, hhigh⟩ := IntType.wrap_unsigned_eq_iff.mp hn
      rw [Int.bmod_def, Int.emod_eq_of_lt hlow (by exact_mod_cast hhigh)] at hpos ⊢
      push_cast at hpos ⊢
      split
      · rfl
      · rename_i hge
        rw [if_neg hge] at hpos
        omega

theorem clampStart_of_inRange (h : InRange shape update starts) {d : Nat} (hd : d < shape.length)
    (hhas : (startAt starts d).Has start) {r : Int} (hr : (startAt starts d).getSExtValue = some r) :
    (clampStart (coord shape d) (coord update d) start : Int) = r := by
  obtain ⟨hpos, hfit⟩ := h d hd r hr
  obtain rfl := eq_of_getSExtValue hhas hr hpos
  obtain ⟨n, rfl⟩ := Int.eq_ofNat_of_zero_le hpos
  rw [clampStart_eq n (by omega)]

theorem start_le_source (hs : s.Ok dim) (k : Nat) : s.start ≤ s.source k := by
  have hoffset : 0 ≤ (k : Int) * s.stride := mul_nonneg (by omega) hs.2.2.2.le
  rw [SliceDim.source_of_ok hs]
  omega

theorem source_lt_limit (hs : s.Ok dim) (hk : k < s.size) : s.source k < s.limit := by
  rw [SliceDim.source_of_ok hs]
  exact (SliceDim.lt_size_iff hs.2.2.2).mp hk

theorem mayReadMemoryWrittenTo_eq_false (hstarts : starts.length = ds.length) (hupdate : update.length = ds.length)
    (h : mayReadMemoryWrittenTo ds starts update = false) : ∃ d < ds.length, ∃ start,
      (startAt starts d).getSExtValue = some start ∧
        ((sliceDim ds d).limit ≤ start ∨ start + coord update d ≤ (sliceDim ds d).start) := by
  induction ds generalizing starts update with
  | nil => cases h
  | cons s ds ih =>
    obtain ⟨dstartv, starts, rfl⟩ := exists_cons_of_length_eq_add_one hstarts
    obtain ⟨n, update, rfl⟩ := exists_cons_of_length_eq_add_one hupdate
    have hrest : mayReadMemoryWrittenTo ds starts update = false → ∃ d < (s :: ds).length, ∃ start,
        (startAt (dstartv :: starts) d).getSExtValue = some start ∧ ((sliceDim (s :: ds) d).limit ≤ start ∨
            start + coord (n :: update) d ≤ (sliceDim (s :: ds) d).start) := by
      intro h
      obtain ⟨d, hd, hfound⟩ := ih (add_right_cancel hstarts) (add_right_cancel hupdate) h
      exact ⟨d + 1, Nat.succ_lt_succ hd, hfound⟩
    rw [mayReadMemoryWrittenTo] at h
    split at h
    · exact hrest h
    · rename_i dstart hdstart
      dsimp only at h
      split_ifs at h with hlimit hstart
      · exact ⟨0, Nat.succ_pos _, dstart, hdstart, .inl hlimit⟩
      · exact ⟨0, Nat.succ_pos _, dstart, hdstart, .inr hstart⟩
      · exact hrest h

theorem mustReadMemoryWrittenTo_eq_true (hstarts : starts.length = ds.length) (hupdate : update.length = ds.length)
    (h : mustReadMemoryWrittenTo ds starts update = true) : ∀ d < ds.length, ∃ start,
      (startAt starts d).getSExtValue = some start ∧
        start ≤ (sliceDim ds d).start ∧ (sliceDim ds d).limit ≤ start + coord update d := by
  induction ds generalizing starts update with
  | nil => exact fun d hd => absurd hd (Nat.not_lt_zero d)
  | cons s ds ih =>
    obtain ⟨dstartv, starts, rfl⟩ := exists_cons_of_length_eq_add_one hstarts
    obtain ⟨n, update, rfl⟩ := exists_cons_of_length_eq_add_one hupdate
    rw [mustReadMemoryWrittenTo] at h
    split at h
    · cases h
    · rename_i dstart hdstart
      dsimp only at h
      split_ifs at h with hstart hlimit
      intro d hd
      cases d with
      | zero => exact ⟨dstart, hdstart, not_lt.mp hstart, not_lt.mp hlimit⟩
      | succ d =>
        exact ih (add_right_cancel hstarts) (add_right_cancel hupdate) h d (Nat.lt_of_succ_lt_succ hd)

section

variable (hds : ds.length = shape.length)
  (hok : ∀ d < ds.length, (sliceDim ds d).Ok (coord shape d)) (hstarts : starts.length = ds.length)
  (hupdate : update.length = ds.length) (hrange : InRange shape update starts)

include hds hok hstarts hupdate hrange

theorem apart_of_inRange (h : mayReadMemoryWrittenTo ds starts update = false) : Apart ds shape update starts := by
  obtain ⟨d, hd, r, hr, hoff⟩ := mayReadMemoryWrittenTo_eq_false hstarts hupdate h
  have hd' : d < shape.length := hds ▸ hd
  refine ⟨d, hd', fun start hhas k hk hwrites => ?_⟩
  have hclamp := clampStart_of_inRange hrange hd' hhas hr
  have hlow := start_le_source (hok d hd) k
  have hhigh := source_lt_limit (hok d hd) hk
  obtain ⟨hfirst, hlast⟩ := hwrites
  omega

theorem covered_of_inRange (h : mustReadMemoryWrittenTo ds starts update = true) : Covered ds shape update starts := by
  refine .inr fun d hd start hhas k hk => ?_
  have hd' : d < ds.length := hds ▸ hd
  obtain ⟨r, hr, hstart, hlimit⟩ := mustReadMemoryWrittenTo_eq_true hstarts hupdate h d hd'
  have hclamp := clampStart_of_inRange hrange hd hhas hr
  have hlow := start_le_source (hok d hd') k
  have hhigh := source_lt_limit (hok d hd') hk
  constructor
  · omega
  · omega

end

end

/-! ### The elements that are read -/

section

variable {α : Type} {ds : List SliceDim} {starts : List StartIndex} {shape update : List Nat} {ss : List Int}
  {x x' u y y' z z' : Tensor α} {c : Nat → Nat}

theorem read_slice_update (hy : dynamicUpdateSlice ss u x = some y) (hz : slice ds y = some z) (hc : Within z.shape c) :
    ((∀ d < x.shape.length, Writes (coord x.shape d) (coord u.shape d) (ss.getD d 0) ((sliceDim ds d).source (c d))) →
      z.read c = u.read fun d =>
        (sliceDim ds d).source (c d) - clampStart (coord x.shape d) (coord u.shape d) (ss.getD d 0)) ∧
    (¬(∀ d < x.shape.length, Writes (coord x.shape d) (coord u.shape d) (ss.getD d 0) ((sliceDim ds d).source (c d))) →
      z.read c = x.read fun d => (sliceDim ds d).source (c d)) := by
  obtain ⟨-, hshape, hread⟩ := read_dynamicUpdateSlice hy
  obtain ⟨-, -, -, hread'⟩ := read_slice hz
  have hwithin := within_source hz hc
  rw [hshape] at hwithin
  rw [hread' c hc]
  exact hread _ hwithin

section

variable (hstarts : starts.length = shape.length)

include hstarts

theorem read_of_apart (hapart : Apart ds shape update starts)
    (hds : ds.length = shape.length) (hok : ∀ d < ds.length, (sliceDim ds d).Ok (coord shape d))
    (hss : HaveValues starts ss) (hx : x.shape = shape) (hu : u.shape = update)
    (hy : dynamicUpdateSlice ss u x = some y) (hc : ∀ d < ds.length, c d < (sliceDim ds d).size) :
    (y.read fun d => (sliceDim ds d).source (c d)) = x.read fun d => (sliceDim ds d).source (c d) := by
  obtain ⟨-, -, hread⟩ := read_dynamicUpdateSlice hy
  refine (hread _ fun d hd => ?_).2 fun hall => ?_
  · have hd' : d < ds.length := by rw [hds, ← hx]; exact hd
    rw [hx]
    exact SliceDim.source_lt (hok d hd') (hc d hd')
  · obtain ⟨d, hd, hnot⟩ := hapart
    have hwrites := hall d (hx.symm ▸ hd)
    rw [hx, hu] at hwrites
    exact hnot _ (hss.2 d (hstarts.symm ▸ hd)) (c d) (hc d (hds.symm ▸ hd)) hwrites

theorem slice_of_apart (hapart : Apart ds shape update starts)
    (hss : HaveValues starts ss) (hx : x.shape = shape) (hu : u.shape = update)
    (hy : dynamicUpdateSlice ss u x = some y) (hz : slice ds y = some z) : ∃ w, slice ds x = some w ∧ Same w z := by
  obtain ⟨-, hshape, -⟩ := read_dynamicUpdateSlice hy
  obtain ⟨hlen, hzshape, hok, -⟩ := read_slice hz
  rw [hshape] at hlen hok
  obtain ⟨w, hw⟩ := exists_slice hlen hok
  obtain ⟨-, hwshape, -, hread⟩ := read_slice hw
  refine ⟨w, hw, same_of_read (hwshape.trans hzshape.symm) fun c hc => ?_⟩
  obtain ⟨-, -, -, hread'⟩ := read_slice hz
  rw [hread c hc, hread' c (by rwa [hzshape, ← hwshape])]
  refine (read_of_apart hstarts hapart (hlen.trans (congrArg _ hx)) (hx ▸ hok) hss hx hu hy fun d hd => ?_).symm
  rw [← coord_slice hw hd]
  exact hc d (by rwa [length_slice hw])

theorem slices_of_covered (hcovered : Covered ds shape update starts)
    (hss : HaveValues starts ss) (hx : x.shape = shape) (hx' : x'.shape = shape) (hu : u.shape = update)
    (hy : dynamicUpdateSlice ss u x = some y) (hy' : dynamicUpdateSlice ss u x' = some y')
    (hz : slice ds y = some z) (hz' : slice ds y' = some z') : Same z z' := by
  obtain ⟨-, hshape, -⟩ := read_dynamicUpdateSlice hy
  obtain ⟨hlen, hzshape, -, -⟩ := read_slice hz
  obtain ⟨-, hzshape', -, -⟩ := read_slice hz'
  rw [hshape, hx] at hlen
  refine same_of_read (hzshape.trans hzshape'.symm) fun c hc => ?_
  have hcz' : Within z'.shape c := by rwa [hzshape', ← hzshape]
  have hsize : ∀ d < shape.length, c d < (sliceDim ds d).size := by
    intro d hd
    rw [← coord_slice hz (hlen.symm ▸ hd)]
    exact hc d (by rw [length_slice hz, hlen]; exact hd)
  have hwrites : ∀ d < shape.length,
      Writes (coord shape d) (coord update d) (ss.getD d 0) ((sliceDim ds d).source (c d)) := by
    rcases hcovered with ⟨d, hd, hzero⟩ | hcovered
    · exact absurd (hsize d hd) (by rw [hzero]; exact Nat.not_lt_zero _)
    · exact fun d hd => hcovered d hd _ (hss.2 d (hstarts.symm ▸ hd)) (c d) (hsize d hd)
  rw [(read_slice_update hy hz hc).1 (by rwa [hx, hu]), (read_slice_update hy' hz' hcz').1 (by rwa [hx', hu]), hx, hx']

end

/-! ### Exactly when the tests are right -/

section

variable (hds : ds.length = shape.length) (hok : ∀ d < ds.length, (sliceDim ds d).Ok (coord shape d))
  (hstarts : starts.length = shape.length) (hfits : List.Forall₂ (· ≤ ·) update shape)

include hds hok hstarts hfits

theorem exists_read {start : Nat → Int} (hhas : ∀ d < shape.length, (startAt starts d).Has (start d))
    {k : Nat → Nat} (hk : ∀ d < shape.length, k d < (sliceDim ds d).size) :
    ∃ ss, HaveValues starts ss ∧ ∀ p q : α, ∃ y z,
      dynamicUpdateSlice ss (splat update q) (splat shape p) = some y ∧ slice ds y = some z ∧ Within z.shape k ∧
        ((∀ d < shape.length, Writes (coord shape d) (coord update d) (start d) ((sliceDim ds d).source (k d))) →
          z.read k = q) ∧
        (¬(∀ d < shape.length, Writes (coord shape d) (coord update d) (start d) ((sliceDim ds d).source (k d))) →
          z.read k = p) := by
  let ss := (range shape.length).map start
  have hlen : ss.length = shape.length := by simp [ss]
  have hget : ∀ d < shape.length, ss.getD d 0 = start d := by
    intro d hd
    rw [getD_eq_getElem _ _ (hlen.symm ▸ hd), getElem_map, getElem_range]
  refine ⟨ss, ⟨hlen.trans hstarts.symm, fun d hd => ?_⟩, fun p q => ?_⟩
  · rw [hget d (hstarts ▸ hd)]
    exact hhas d (hstarts ▸ hd)
  obtain ⟨y, hy⟩ : ∃ y, dynamicUpdateSlice ss (splat update q) (splat shape p) = some y :=
    ⟨_, if_pos ⟨hlen, hfits⟩⟩
  obtain ⟨-, hshape, -⟩ := read_dynamicUpdateSlice hy
  have hshape : y.shape = shape := hshape
  obtain ⟨z, hz⟩ := exists_slice (x := y) (hshape.symm ▸ hds) (hshape.symm ▸ hok)
  have hwithin : Within z.shape k := by
    intro d hd
    rw [length_slice hz] at hd
    rw [coord_slice hz hd]
    exact hk d (hds ▸ hd)
  refine ⟨y, z, hy, hz, hwithin, fun hall => ?_, fun hnot => ?_⟩
  · refine (read_slice_update hy hz hwithin).1 fun d hd => ?_
    have hd : d < shape.length := hd
    rw [hget d hd]
    exact hall d hd
  · refine (read_slice_update hy hz hwithin).2 fun hall => hnot fun d hd => ?_
    have hwrites := hall d hd
    rwa [hget d hd] at hwrites

theorem readsOperand_iff [Nontrivial α] : ReadsOperand α ds shape update starts ↔ Apart ds shape update starts := by
  constructor
  · intro h
    by_contra hnot
    simp only [Apart, not_exists, not_and, not_forall, not_not] at hnot
    choose! start hhas k hk hwrites using hnot
    obtain ⟨p, q, hpq⟩ := exists_pair_ne α
    obtain ⟨ss, hss, hat⟩ := exists_read hds hok hstarts hfits hhas hk
    obtain ⟨y, z, hy, hz, hwithin, hread, -⟩ := hat p q
    obtain ⟨w, hw, hsame⟩ := h ss _ _ y z hss rfl rfl hy hz
    obtain ⟨-, hwshape, -, hwread⟩ := read_slice hw
    have hwk : Within w.shape k := hsame.shape_eq ▸ hwithin
    have heq := hsame.read_eq hwk
    rw [hwread k hwk, hread hwrites] at heq
    exact hpq heq
  · intro hapart ss x u y z hss hx hu hy hz
    exact slice_of_apart hstarts hapart hss hx hu hy hz

theorem readsUpdate_iff [Nontrivial α] (hvals : ∃ ss, HaveValues starts ss) :
    ReadsUpdate α ds shape update starts ↔ Covered ds shape update starts := by
  constructor
  · intro h
    by_contra hnot
    simp only [Covered, not_or, not_exists, not_and, not_forall] at hnot
    obtain ⟨hsizes, e, he, start, hhas, k, hk, hout⟩ := hnot
    obtain ⟨ss, hlen, hss⟩ := hvals
    obtain ⟨p, q, hpq⟩ := exists_pair_ne α
    have hhas' : ∀ d < shape.length, (startAt starts d).Has (Function.update (fun d => ss.getD d 0) e start d) := by
      intro d hd
      by_cases hde : d = e
      · rw [hde, update_self]
        exact hhas
      · rw [update_of_ne hde]
        exact hss d (hstarts.symm ▸ hd)
    have hk' : ∀ d < shape.length, Function.update (fun _ => 0) e k d < (sliceDim ds d).size := by
      intro d hd
      by_cases hde : d = e
      · rw [hde, update_self]
        exact hk
      · rw [update_of_ne hde]
        exact pos_of_ne_zero (hsizes d hd)
    have hmiss : ¬(∀ d < shape.length, Writes (coord shape d) (coord update d)
        (Function.update (fun d => ss.getD d 0) e start d)
          ((sliceDim ds d).source (Function.update (fun _ => 0) e k d))) := by
      intro hall
      have hwrites := hall e he
      rw [update_self, update_self] at hwrites
      exact hout hwrites
    obtain ⟨ss', hss', hat⟩ := exists_read hds hok hstarts hfits hhas' hk'
    obtain ⟨y, z, hy, hz, hwithin, -, hread⟩ := hat p p
    obtain ⟨y', z', hy', hz', -, -, hread'⟩ := hat q p
    have heq := (h ss' _ _ _ y y' z z' hss' rfl rfl rfl hy hy' hz hz').read_eq hwithin
    rw [hread hmiss, hread' hmiss] at heq
    exact hpq heq
  · intro hcovered ss x x' u y y' z z' hss hx hx' hu hy hy' hz hz'
    exact slices_of_covered hstarts hcovered hss hx hx' hu hy hy' hz hz'

end

/-- What the verifier asks of an update and of a slice of its result. -/
structure Verified (ds : List SliceDim) (shape update : List Nat) (starts : List StartIndex) : Prop where
  slice_ok : List.Forall₂ SliceDim.Ok ds shape
  length_starts : starts.length = shape.length
  update_le : List.Forall₂ (· ≤ ·) update shape
  values : ∃ ss, HaveValues starts ss

theorem mayRead_right_iff [Nontrivial α] (hv : Verified ds shape update starts)
    (h : mayReadMemoryWrittenTo ds starts update = false) :
    ReadsOperand α ds shape update starts ↔ InRange shape update starts ∨ Apart ds shape update starts := by
  obtain ⟨hds, hok⟩ := forall₂_ok_iff.mp hv.slice_ok
  rw [readsOperand_iff hds hok hv.length_starts hv.update_le]
  exact (or_iff_right_of_imp fun hrange => apart_of_inRange hds hok (hv.length_starts.trans hds.symm)
    (hv.update_le.length_eq.trans hds.symm) hrange h).symm

theorem mustRead_right_iff [Nontrivial α] (hv : Verified ds shape update starts)
    (h : mustReadMemoryWrittenTo ds starts update = true) :
    ReadsUpdate α ds shape update starts ↔ InRange shape update starts ∨ Covered ds shape update starts := by
  obtain ⟨hds, hok⟩ := forall₂_ok_iff.mp hv.slice_ok
  rw [readsUpdate_iff hds hok hv.length_starts hv.update_le hv.values]
  exact (or_iff_right_of_imp fun hrange => covered_of_inRange hds hok (hv.length_starts.trans hds.symm)
    (hv.update_le.length_eq.trans hds.symm) hrange h).symm

end

/-! ### An update of two elements -/

theorem verified_pair {s : SliceDim} {m : Nat} {n : Int} (hs : s.Ok m) (hm : 2 ≤ m)
    (hn : IntType.wrap ⟨64, false⟩ n = n) : Verified [s] [m] [2] [.constant ⟨64, false⟩ n] := by
  refine ⟨.cons hs .nil, rfl, .cons hm .nil, [n], rfl, fun d hd => ?_⟩
  obtain rfl := Nat.lt_one_iff.mp hd
  exact ⟨rfl, hn⟩

/-- An update that is to start at 5 of two elements is moved to the first one, which is sliced. -/
theorem not_readsOperand_clamped : Verified [⟨0, 1, 1⟩] [2] [2] [.constant ⟨64, false⟩ 5] ∧
    mayReadMemoryWrittenTo [⟨0, 1, 1⟩] [.constant ⟨64, false⟩ 5] [2] = false ∧
      ¬ReadsOperand Bool [⟨0, 1, 1⟩] [2] [2] [.constant ⟨64, false⟩ 5] := by
  have hv : Verified [⟨0, 1, 1⟩] [2] [2] [.constant ⟨64, false⟩ 5] :=
    verified_pair (by decide) le_rfl (by decide)
  obtain ⟨hds, hok⟩ := forall₂_ok_iff.mp hv.slice_ok
  refine ⟨hv, by decide, fun h => ?_⟩
  obtain ⟨d, hd, hnot⟩ := (readsOperand_iff hds hok hv.length_starts hv.update_le).mp h
  obtain rfl := Nat.lt_one_iff.mp hd
  exact hnot 5 ⟨rfl, by decide⟩ 0 (by decide) (by decide)

end EnzymeJax.OverlapTests
