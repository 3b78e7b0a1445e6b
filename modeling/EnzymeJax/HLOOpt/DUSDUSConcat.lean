import EnzymeJax.Library.IntType
import EnzymeJax.Library.UpdateLine

/-!
# Stacked updates

Two stacked `dynamic_update_slice` ops whose regions differ in one dimension are replaced by one. The cases are told
apart by the constant starts as they are written; where these are clamped, the regions may be elsewhere.
-/

namespace EnzymeJax.DUSDUSConcat

open Tensor List Option

/-- The value of a constant of the type that is made from an integer. -/
def makeAttr (type : IntType) (n : Int) : Int := type.wrap n

/-- What is known of an op: the shape of the update, and values that are the start indices. -/
structure Dus (V : Type) where
  updateShape : List Nat
  startIndices : List V

inductive Case
  /-- `[update1][update2]` -/
  | updateThenOld
  /-- `[update2][update1]` -/
  | oldThenUpdate
  /-- The old update is overwritten. -/
  | covered
  /-- The new update is within the space of the old one. -/
  | within
  /-- The new update overlaps, following the old one. -/
  | following
  /-- The new update overlaps, followed by the old one. -/
  | followed
  deriving DecidableEq

variable {V : Type} [DecidableEq V]

/-- The one start index that differs, or else the one extent of the updates. -/
def diffidx (dus dus2 : Dus V) : Option Nat :=
  match (List.range dus.startIndices.length).filter fun i =>
      dus.startIndices[i]? ≠ dus2.startIndices[i]? with
  | [i] => some i
  | [] =>
    match (List.range dus.startIndices.length).filter fun i =>
        coord dus.updateShape i ≠ coord dus2.updateShape i with
    | [i] => some i
    | _ => none
  | _ => none

/-- `dim` is the extent of the operand, `sz0` and `idx0` are of the new update, `sz1` and `idx1` of the old
one. -/
def selectCase (dim sz0 sz1 : Nat) (idx0 idx1 : Int) (allStatic : Bool) : Option Case :=
  if idx1 = idx0 + sz0 then some .updateThenOld
  else if idx0 = idx1 + sz1 then some .oldThenUpdate
  else if idx1 ≥ idx0 ∧ idx1 + sz1 ≤ idx0 + sz0 then some .covered
  else if idx0 ≥ idx1 ∧ idx0 + sz0 ≤ idx1 + sz1 then some .within
  else if idx0 ≥ idx1 ∧ idx0 < idx1 + sz1 ∧ idx0 + sz0 > idx1 + sz1 ∧ allStatic ∧ idx0 + sz0 ≤ dim then
    some .following
  else if idx0 < idx1 ∧ idx1 < idx0 + sz0 ∧ idx0 + sz0 < idx1 + sz1 ∧ allStatic ∧ idx1 + sz1 ≤ dim then
    some .followed
  else none

structure Match (V : Type) where
  diffidx : Nat
  /-- The start indices along the dimension. -/
  start0 : V
  start1 : V
  idx0 : Int
  idx1 : Int
  case : Case

def matchOps (constant : V → Option Int) (shape : List Nat) (dus dus2 : Dus V) : Option (Match V) := do
  let d ← diffidx dus dus2
  guard (∀ i < dus.startIndices.length, i ≠ d → coord dus.updateShape i = coord dus2.updateShape i)
  let start0 ← dus.startIndices[d]?
  let start1 ← dus2.startIndices[d]?
  let idx0 ← constant start0
  let idx1 ← constant start1
  let allStatic := dus.startIndices.all fun v => (constant v).isSome
  let case ← selectCase (coord shape d) (coord dus.updateShape d) (coord dus2.updateShape d) idx0 idx1
    allStatic
  return ⟨d, start0, start1, idx0, idx1, case⟩

section

variable {α : Type*} (typeOf : V → IntType) (env : V → Int) (dus dus2 : Dus V) (m : Match V)

def newUpdate (update1 update2 : Tensor α) : Option (Tensor α) :=
  let sz0 := coord dus.updateShape m.diffidx
  let sz1 := coord dus2.updateShape m.diffidx
  match m.case with
  | .updateThenOld => concatenate m.diffidx [update1, update2]
  | .oldThenUpdate => concatenate m.diffidx [update2, update1]
  | .covered => some update1
  | .within =>
    let c0 := makeAttr (typeOf m.start0) 0
    let cidx := makeAttr (typeOf m.start0) (m.idx0 - m.idx1)
    dynamicUpdateSlice ((List.replicate dus.startIndices.length c0).set m.diffidx cidx) update1 update2
  | .following =>
    (slice (sliceAlong m.diffidx 0 (m.idx0 - m.idx1) update2.shape) update2).bind fun begin_ =>
      concatenate m.diffidx [begin_, update1]
  | .followed =>
    (slice (sliceAlong m.diffidx 0 (m.idx1 + sz1 - (m.idx0 + sz0)) update2.shape) update2).bind
      fun end_ => concatenate m.diffidx [update1, end_]

def newStartIndices : List V :=
  match m.case with
  | .updateThenOld | .covered | .followed => dus.startIndices
  | .oldThenUpdate | .within | .following => dus2.startIndices

def original (operand update1 update2 : Tensor α) : Option (Tensor α) :=
  (dynamicUpdateSlice (dus2.startIndices.map env) update2 operand).bind
    (dynamicUpdateSlice (dus.startIndices.map env) update1)

def rewritten (operand update1 update2 : Tensor α) : Option (Tensor α) :=
  (newUpdate typeOf dus dus2 m update1 update2).bind fun update =>
    dynamicUpdateSlice ((newStartIndices dus dus2 m).map env) update operand

/-- The rewritten op computes the same tensor, whatever the elements. -/
def Preserves (α : Type*) (shape : List Nat) : Prop :=
  ∀ operand update1 update2 result : Tensor α, operand.shape = shape →
    update1.shape = dus.updateShape → update2.shape = dus2.updateShape →
      original env dus dus2 operand update1 update2 = some result →
        ∃ result', rewritten typeOf env dus dus2 m operand update1 update2 = some result' ∧ Same result' result

/-- Where the regions along the dimension, with the start indices clamped, are those of the two updates. -/
def InPlace (dim : Nat) : Prop :=
  let sz0 := coord dus.updateShape m.diffidx
  let sz1 := coord dus2.updateShape m.diffidx
  let start0 := clampStart dim sz0 (env m.start0)
  let start1 := clampStart dim sz1 (env m.start1)
  match m.case with
  | .updateThenOld =>
    let start := clampStart dim (sz0 + sz1) (env m.start0)
    (sz0 = 0 ∨ start0 = start) ∧ (sz1 = 0 ∨ start1 = start + sz0)
  | .oldThenUpdate =>
    let start := clampStart dim (sz0 + sz1) (env m.start1)
    (sz1 = 0 ∨ start1 = start) ∧ (sz0 = 0 ∨ start0 = start + sz1)
  | .covered => sz1 = 0 ∨ start0 ≤ start1 ∧ start1 + sz1 ≤ start0 + sz0
  | .within =>
    sz0 = 0 ∨ start0 = start1 + clampStart sz1 sz0 (makeAttr (typeOf m.start0) (m.idx0 - m.idx1))
  | .following =>
    let shift := (m.idx0 - m.idx1).toNat
    let start := clampStart dim (shift + sz0) (env m.start1)
    start1 = start ∧ start0 = start + shift
  | .followed => False

def newSize : Nat :=
  let sz0 := coord dus.updateShape m.diffidx
  let sz1 := coord dus2.updateShape m.diffidx
  match m.case with
  | .updateThenOld | .oldThenUpdate => sz0 + sz1
  | .covered => sz0
  | .within => sz1
  | .following => (m.idx0 - m.idx1).toNat + sz0
  | .followed => sz0 + (m.idx1 + sz1 - (m.idx0 + sz0)).toNat

/-- Where the elements of the new update along the dimension come from. -/
def newSource (k : Nat) : Source :=
  let sz0 := coord dus.updateShape m.diffidx
  let sz1 := coord dus2.updateShape m.diffidx
  match m.case with
  | .updateThenOld | .followed => if k < sz0 then .newer k else .older (k - sz0)
  | .oldThenUpdate => if k < sz1 then .older k else .newer (k - sz1)
  | .covered => .newer k
  | .within =>
    let shift := clampStart sz1 sz0 (makeAttr (typeOf m.start0) (m.idx0 - m.idx1))
    if shift ≤ k ∧ k < shift + sz0 then .newer (k - shift) else .older k
  | .following =>
    let shift := (m.idx0 - m.idx1).toNat
    if k < shift then .older k else .newer (k - shift)

/-- The new update fits into the operand and, unless the updates are empty in another dimension, its parts
are where they were. -/
def HoldsWhen (shape : List Nat) : Prop :=
  newSize dus dus2 m ≤ coord shape m.diffidx ∧ ((∃ i < shape.length, i ≠ m.diffidx ∧ coord dus.updateShape i = 0) ∨
      InPlace typeOf env dus dus2 m (coord shape m.diffidx))

end

/-! ### What is matched -/

section

variable {constant : V → Option Int} {shape : List Nat} {dus dus2 : Dus V} {m : Match V}

theorem eq_set_of_filter_eq {β : Type*} [DecidableEq β] {l l' : List β} (hlen : l'.length = l.length) {i : Nat}
    {b : β} (hi : l'[i]? = some b) (h : ∀ j < l.length, j ≠ i → l[j]? = l'[j]?) : l' = l.set i b := by
  refine ext_getElem? fun j => ?_
  rw [getElem?_set]
  split
  · rename_i hij
    subst hij
    have hlt : i < l.length := hlen ▸ (List.getElem?_eq_some_iff.mp hi).1
    rw [if_pos hlt, hi]
  · rename_i hij
    by_cases hj : j < l.length
    · exact (h j hj (Ne.symm hij)).symm
    · rw [getElem?_eq_none (by omega), getElem?_eq_none (by omega)]

theorem startIndices_eq_of_diffidx {d : Nat} (h : diffidx dus dus2 = some d) :
    d < dus.startIndices.length ∧
      ∀ i < dus.startIndices.length, i ≠ d → dus.startIndices[i]? = dus2.startIndices[i]? := by
  have hfilter : ∀ {p : Nat → Bool} {l : List Nat},
      (range dus.startIndices.length).filter p = l → ∀ i, i ∈ l ↔ i < dus.startIndices.length ∧ p i := by
    intro p l hl i
    rw [← hl, mem_filter, mem_range]
  rw [diffidx] at h
  split at h
  · rename_i i hi
    obtain rfl := some.inj h
    have hmem := hfilter hi
    refine ⟨((hmem i).mp mem_cons_self).1, fun j hj hne => ?_⟩
    by_contra hdiff
    exact hne (mem_singleton.mp ((hmem j).mpr ⟨hj, decide_eq_true hdiff⟩))
  · rename_i hnone
    have hmem := hfilter hnone
    split at h
    · rename_i i hi
      obtain rfl := some.inj h
      refine ⟨(((hfilter hi) i).mp mem_cons_self).1, fun j hj _ => ?_⟩
      by_contra hdiff
      exact not_mem_nil ((hmem j).mpr ⟨hj, decide_eq_true hdiff⟩)
    · cases h
  · cases h

structure Matched (constant : V → Option Int) (shape : List Nat) (dus dus2 : Dus V) (m : Match V) :
    Prop where
  lt : m.diffidx < dus.startIndices.length
  start0_eq : dus.startIndices[m.diffidx]? = some m.start0
  start1_eq : dus2.startIndices[m.diffidx]? = some m.start1
  starts_eq : ∀ i < dus.startIndices.length, i ≠ m.diffidx → dus.startIndices[i]? = dus2.startIndices[i]?
  sizes_eq : ∀ i < dus.startIndices.length, i ≠ m.diffidx → coord dus.updateShape i = coord dus2.updateShape i
  case_eq : ∃ allStatic, selectCase (coord shape m.diffidx) (coord dus.updateShape m.diffidx)
    (coord dus2.updateShape m.diffidx) m.idx0 m.idx1 allStatic = some m.case

theorem matched_of_matchOps (h : matchOps constant shape dus dus2 = some m) :
    Matched constant shape dus dus2 m := by
  rw [matchOps] at h
  obtain ⟨d, hd, h⟩ := bind_eq_some_iff.mp h
  obtain ⟨_, hsizes, h⟩ := bind_eq_some_iff.mp h
  obtain ⟨start0, hstart0, h⟩ := bind_eq_some_iff.mp h
  obtain ⟨start1, hstart1, h⟩ := bind_eq_some_iff.mp h
  obtain ⟨idx0, -, h⟩ := bind_eq_some_iff.mp h
  obtain ⟨idx1, -, h⟩ := bind_eq_some_iff.mp h
  obtain ⟨case, hcase, h⟩ := bind_eq_some_iff.mp h
  cases h
  obtain ⟨hlt, hstarts⟩ := startIndices_eq_of_diffidx hd
  exact ⟨hlt, hstart0, hstart1, hstarts, (guard_eq_some' _).mp hsizes, _, hcase⟩

/-- What the constants of a case are like, and the extents `sz0` and `sz1` of the updates. -/
def Guard (sz0 sz1 : Nat) (idx0 idx1 : Int) : Case → Prop
  | .updateThenOld | .oldThenUpdate | .covered => True
  | .within => sz0 ≤ sz1
  | .following => idx1 < idx0 ∧ idx0 < idx1 + sz1 ∧ idx1 + sz1 < idx0 + sz0
  | .followed => idx0 < idx1 ∧ idx1 < idx0 + sz0 ∧ idx0 + sz0 < idx1 + sz1

theorem guard_of_selectCase {dim sz0 sz1 : Nat} {idx0 idx1 : Int} {allStatic : Bool} {case : Case}
    (h : selectCase dim sz0 sz1 idx0 idx1 allStatic = some case) : Guard sz0 sz1 idx0 idx1 case := by
  rw [selectCase] at h
  split at h
  · cases h
    trivial
  · split at h
    · cases h
      trivial
    · split at h
      · cases h
        trivial
      · split at h
        · cases h
          rw [Guard]
          omega
        · split at h
          · cases h
            rw [Guard]
            omega
          · split at h
            · cases h
              rw [Guard]
              omega
            · cases h

end

/-! ### Arrangements of the regions -/

namespace Arrangement

open Source

variable {dim m n c c' e shift l : Nat}

theorem updateThenOld_iff (hc : c + m ≤ dim) (hc' : c' + n ≤ dim) (he : e + (m + n) ≤ dim) :
    (∀ k < dim, layered c m c' n k = merged e (m + n) (fun k => if k < m then newer k else older (k - m)) k) ↔
        (m = 0 ∨ c = e) ∧ (n = 0 ∨ c' = e + m) := by
  constructor
  · intro h
    constructor
    · by_contra hne
      have hfirst := h e (by omega)
      grind [layered, merged]
    · by_contra hne
      have hfirst := h (e + m) (by omega)
      grind [layered, merged]
  · intro h k hk
    grind [layered, merged]

theorem oldThenUpdate_iff (hc : c + m ≤ dim) (hc' : c' + n ≤ dim) (he : e + (m + n) ≤ dim) :
    (∀ k < dim, layered c m c' n k = merged e (m + n) (fun k => if k < n then older k else newer (k - n)) k) ↔
        (n = 0 ∨ c' = e) ∧ (m = 0 ∨ c = e + n) := by
  constructor
  · intro h
    constructor
    · by_contra hne
      have hfirst := h e (by omega)
      grind [layered, merged]
    · by_contra hne
      have hfirst := h (e + n) (by omega)
      grind [layered, merged]
  · intro h k hk
    grind [layered, merged]

theorem covered_iff (hc' : c' + n ≤ dim) :
    (∀ k < dim, layered c m c' n k = merged c m newer k) ↔ n = 0 ∨ c ≤ c' ∧ c' + n ≤ c + m := by
  constructor
  · intro h
    by_contra hne
    -- The first or the last element of the old update is to be seen.
    have hfirst := h c' (by omega)
    have hlast := h (c' + n - 1) (by omega)
    grind [layered, merged]
  · intro h k hk
    grind [layered, merged]

theorem within_iff (hc' : c' + n ≤ dim) (hshift : shift + m ≤ n) : (∀ k < dim, layered c m c' n k = merged c' n
      (fun k => if shift ≤ k ∧ k < shift + m then newer (k - shift) else older k) k) ↔ m = 0 ∨ c = c' + shift := by
  constructor
  · intro h
    by_contra hne
    have hfirst := h (c' + shift) (by omega)
    grind [layered, merged]
  · intro h k hk
    grind [layered, merged]

theorem following_iff (he : e + (shift + m) ≤ dim) (hshift : 0 < shift) (hlt : shift < n) (hend : n < shift + m) :
    (∀ k < dim, layered c m c' n k =
      merged e (shift + m) (fun k => if k < shift then older k else newer (k - shift)) k) ↔ c' = e ∧ c = e + shift := by
  constructor
  · intro h
    have hfirst := h e (by omega)
    have hnew := h (e + shift) (by omega)
    grind [layered, merged]
  · intro h k hk
    grind [layered, merged]

theorem not_followed (hc' : c' + n ≤ dim) (he : e + (m + l) ≤ dim) (hm : 0 < m)
    (hl : 0 < l) (hlt : l < n) : ¬∀ k < dim, layered c m c' n k =
      merged e (m + l) (fun k => if k < m then newer k else older (k - m)) k := by
  intro h
  have hold := h (e + m) (by omega)
  have hlast : e + (m + l) < dim → _ := h (e + (m + l))
  grind [layered, merged]

end Arrangement

/-! ### The new update -/

section

variable {α : Type} {typeOf : V → IntType} {env : V → Int} {dus dus2 : Dus V} {m : Match V}
  {constant : V → Option Int} {shape : List Nat}

omit [DecidableEq V] in
theorem made_newUpdate (typeOf : V → IntType) (hlt : m.diffidx < dus.updateShape.length)
    (hrank : dus.startIndices.length = dus.updateShape.length)
    (hguard : Guard (coord dus.updateShape m.diffidx) (coord dus2.updateShape m.diffidx) m.idx0 m.idx1
      m.case) (u v : Tensor α) (hu : u.shape = dus.updateShape.set m.diffidx (coord dus.updateShape m.diffidx))
    (hv : v.shape = dus.updateShape.set m.diffidx (coord dus2.updateShape m.diffidx)) :
    ∃ w, newUpdate typeOf dus dus2 m u v = some w ∧
      Made m.diffidx dus.updateShape u v (newSize dus dus2 m) (newSource typeOf dus dus2 m) w := by
  obtain ⟨d, start0, start1, idx0, idx1, case⟩ := m
  dsimp only at hlt hu hv
  have hnewer := Made.newer (v := v) hu
  have holder := Made.older (u := u) hv
  cases case with
  | updateThenOld => exact hnewer.concatenate hlt holder
  | oldThenUpdate =>
    obtain ⟨w, hw, hmade⟩ := holder.concatenate hlt hnewer
    refine ⟨w, hw, ?_⟩
    rwa [add_comm] at hmade
  | covered => exact ⟨u, rfl, hnewer⟩
  | within =>
    have hwithin := hnewer.update (a := makeAttr (typeOf start0) (idx0 - idx1)) hlt holder hguard
    rw [← hrank, ← (typeOf start0).wrap_zero] at hwithin
    exact hwithin
  | following =>
    obtain ⟨hlow, hhigh, hend⟩ : idx1 < idx0 ∧ idx0 < idx1 + coord dus2.updateShape d ∧
      idx1 + coord dus2.updateShape d < idx0 + coord dus.updateShape d := hguard
    obtain ⟨y, hy, hmade⟩ := holder.slice hlt (idx0 - idx1) (by omega) (by omega)
    obtain ⟨w, hw, hmade'⟩ := hmade.concatenate hlt hnewer
    exact ⟨w, bind_eq_some_iff.mpr ⟨y, hy, hw⟩, hmade'⟩
  | followed =>
    obtain ⟨hlow, hhigh, hend⟩ : idx0 < idx1 ∧ idx1 < idx0 + coord dus.updateShape d ∧
      idx0 + coord dus.updateShape d < idx1 + coord dus2.updateShape d := hguard
    obtain ⟨y, hy, hmade⟩ := holder.slice hlt
      (idx1 + coord dus2.updateShape d - (idx0 + coord dus.updateShape d)) (by omega) (by omega)
    obtain ⟨w, hw, hmade'⟩ := hnewer.concatenate hlt hmade
    exact ⟨w, bind_eq_some_iff.mpr ⟨y, hy, hw⟩, hmade'⟩

omit [DecidableEq V] in
/-- The elements come from the same places if and only if the regions are in place. -/
theorem layered_eq_merged_iff {dim : Nat}
    (hguard : Guard (coord dus.updateShape m.diffidx) (coord dus2.updateShape m.diffidx) m.idx0 m.idx1 m.case)
    (hdim : coord dus.updateShape m.diffidx ≤ dim) (hdim2 : coord dus2.updateShape m.diffidx ≤ dim)
    (hnew : newSize dus dus2 m ≤ dim) {start : V} (hstart : start = match m.case with
      | .updateThenOld | .covered | .followed => m.start0
      | .oldThenUpdate | .within | .following => m.start1) :
    (∀ k < dim, Source.layered (clampStart dim (coord dus.updateShape m.diffidx) (env m.start0))
        (coord dus.updateShape m.diffidx)
        (clampStart dim (coord dus2.updateShape m.diffidx) (env m.start1))
        (coord dus2.updateShape m.diffidx) k =
      Source.merged (clampStart dim (newSize dus dus2 m) (env start)) (newSize dus dus2 m)
        (newSource typeOf dus dus2 m) k) ↔ InPlace typeOf env dus dus2 m dim := by
  obtain ⟨d, start0, start1, idx0, idx1, case⟩ := m
  dsimp only at hdim hdim2
  have hc := clampStart_le hdim (env start0)
  have hc' := clampStart_le hdim2 (env start1)
  have he := clampStart_le hnew (env start)
  cases case with
  | updateThenOld =>
    subst hstart
    exact Arrangement.updateThenOld_iff hc hc' he
  | oldThenUpdate =>
    subst hstart
    exact Arrangement.oldThenUpdate_iff hc hc' he
  | covered =>
    subst hstart
    exact Arrangement.covered_iff hc'
  | within =>
    subst hstart
    exact Arrangement.within_iff hc' (clampStart_le hguard _)
  | following =>
    subst hstart
    obtain ⟨hlow, hhigh, hend⟩ : idx1 < idx0 ∧ idx0 < idx1 + coord dus2.updateShape d ∧
      idx1 + coord dus2.updateShape d < idx0 + coord dus.updateShape d := hguard
    have hshift : 0 < (idx0 - idx1).toNat ∧ (idx0 - idx1).toNat < coord dus2.updateShape d ∧
        coord dus2.updateShape d < (idx0 - idx1).toNat + coord dus.updateShape d := by omega
    exact Arrangement.following_iff he hshift.1 hshift.2.1 hshift.2.2
  | followed =>
    subst hstart
    obtain ⟨hlow, hhigh, hend⟩ : idx0 < idx1 ∧ idx1 < idx0 + coord dus.updateShape d ∧
      idx0 + coord dus.updateShape d < idx1 + coord dus2.updateShape d := hguard
    have hkept : 0 < coord dus.updateShape d ∧
        0 < (idx1 + coord dus2.updateShape d - (idx0 + coord dus.updateShape d)).toNat ∧
        (idx1 + coord dus2.updateShape d - (idx0 + coord dus.updateShape d)).toNat <
          coord dus2.updateShape d := by omega
    exact iff_of_false (Arrangement.not_followed hc' he hkept.1 hkept.2.1 hkept.2.2) id

end

/-! ### Constant start indices -/

def i64 (_ : Int) : IntType := ⟨64, false⟩

def adjacent : Match Int := ⟨0, 1, 3, 1, 3, .updateThenOld⟩

/-- The new update starts first and ends within the old one, whose last two elements are to be kept. -/
def overlapping : Match Int := ⟨0, 0, 2, 0, 2, .followed⟩

end EnzymeJax.DUSDUSConcat
