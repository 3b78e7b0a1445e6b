import EnzymeJax.HLOOpt.ElementwiseSlices

/-!
# Dynamic slices of elementwise ops

The starts of the common slice are the first ones of its users where these are constants, and the one that all
users share where it is known at run time, for which -1 stands while the users are gone through.
-/

namespace EnzymeJax.ElementwiseSlices

open Tensor DynamicSlices Option
open List hiding allSome

/-! ### The pattern -/

/-- A start index: a constant, or a value of the program. -/
inductive StartIndex
  | constant (c : Int)
  | value (v : Nat)
  deriving DecidableEq

structure DynamicSliceOp where
  block : Nat
  indexType : IntType
  starts : List StartIndex
  sizes : List Nat

/-- The start index, where `values` are those of the program. -/
def StartIndex.start (type : IntType) (values : Nat → Int) : StartIndex → Start
  | .constant c => ⟨type, c, true⟩
  | .value v => ⟨type, values v, false⟩

namespace DynamicSliceOp

def startAt (op : DynamicSliceOp) (d : Nat) : StartIndex := op.starts.getD d (.constant 0)

/-- The constant that a start index is, if it is one. -/
def constIdx (op : DynamicSliceOp) (d : Nat) : Option Int :=
  match op.startAt d with
  | .constant c => some (c.bmod (2 ^ op.indexType.width))
  | .value _ => none

def startsAt (op : DynamicSliceOp) (values : Nat → Int) : List Start :=
  op.starts.map (·.start op.indexType values)

end DynamicSliceOp

/-- Start and size of the common slice in a dimension, after one more user. -/
def addDynamicUser (op : DynamicSliceOp) (d : Nat) (common : Int × Nat) (user : DynamicSliceOp) :
    Option (Int × Nat) :=
  match user.constIdx d with
  | some constIdx =>
    if common.1 = -1 then none
    else
      let startIdx := min constIdx common.1
      let curLimit := constIdx + coord user.sizes d
      let prevLimit := common.1 + common.2
      let newLimit := max curLimit prevLimit
      some (startIdx, (newLimit - startIdx).toNat)
  | none =>
    if user.startAt d ≠ op.startAt d then none
    else some (common.1, max common.2 (coord user.sizes d))

/-- No dimension looks at another one. -/
def commonDim (op : DynamicSliceOp) (users : List DynamicSliceOp) (d : Nat) : Option (Int × Nat) :=
  users.foldlM (addDynamicUser op d) ((op.constIdx d).getD (-1), coord op.sizes d)

def newStart (op : DynamicSliceOp) (d : Nat) (constantStart : Int) : StartIndex :=
  if constantStart ≠ -1 then .constant (makeAttr op.indexType constantStart) else op.startAt d

/-- A dimension of a user as a slice of the common one. -/
def newDynamicUser (user : DynamicSliceOp) (d : Nat) (common : Int × Nat) : Option SliceDim :=
  if common.1 = -1 then some ⟨0, coord user.sizes d, 1⟩
  else (user.constIdx d).map fun origStart =>
    ⟨origStart - common.1, origStart - common.1 + coord user.sizes d, 1⟩

inductive NewDynamicOps
  | single (op : DynamicSliceOp)
  | common (indexElemType : Option IntType) (starts : List StartIndex) (sizes : List Nat)
      (users : List (List SliceDim))

/-- The users of the elementwise op are `dynamic_slice` ops, or other ops. -/
def DynamicSliceElementwise (elemBlock : Nat) (op : DynamicSliceOp) (users : List (Option DynamicSliceOp)) :
    Option NewDynamicOps :=
  if elemBlock ≠ op.block then none
  else if users.length = 1 then some (.single op)
  else do
    let allDSUsers ← allSome users
    if ∀ dsOp ∈ allDSUsers, dsOp.block = elemBlock then do
      let common ← allSome ((List.range op.starts.length).map (commonDim op allDSUsers))
      let newUsers ← allSome (allDSUsers.map fun dsOp => allSome (common.mapIdx (newDynamicUser dsOp)))
      some (.common (op.starts.head?.map fun _ => op.indexType) (common.mapIdx fun d c => newStart op d c.1)
        (common.map Prod.snd) newUsers)
    else none

section

variable {α β : Type} (f : List α → β) (values : Nat → Int) (xs : List (Tensor α))

def originalDynamic (shape : List Nat) (users : List DynamicSliceOp) : Option (List (Tensor β)) :=
  (elementwise f shape xs).bind fun y =>
    allSome (users.map fun dsOp => dynamicSlice ((dsOp.startsAt values).map Start.value) dsOp.sizes y)

def NewDynamicOps.eval : NewDynamicOps → Option (List (Tensor β))
  | .single op => do
    let ops ← allSome (xs.map (dynamicSlice ((op.startsAt values).map Start.value) op.sizes))
    let nex ← elementwise f op.sizes ops
    return [nex]
  | .common indexElemType starts sizes users => do
    let type ← indexElemType
    let ops ← allSome (xs.map (DynamicSliceOpCreate (starts.map (·.start type values)) sizes))
    let nex ← elementwise f sizes ops
    allSome (users.map (SliceOpCreate · nex))

end

/-- The values of the start indices are of their types. -/
def ValidValues (users : List DynamicSliceOp) (values : Nat → Int) : Prop :=
  ∀ dsOp ∈ users, ∀ s ∈ dsOp.startsAt values, s.Valid

instance (users : List DynamicSliceOp) (values : Nat → Int) : Decidable (ValidValues users values) :=
  inferInstanceAs (Decidable (∀ dsOp ∈ users, ∀ s ∈ dsOp.startsAt values, s.Valid))

/-- Whatever the starts at run time and the operands are, of which there are `n`, each user gets what it was. -/
def DynamicPreserves {α β : Type} (f : List α → β) (n : Nat) (shape : List Nat) (users : List DynamicSliceOp)
    (newOps : NewDynamicOps) : Prop :=
  ∀ (values : Nat → Int) (xs : List (Tensor α)) (rs : List (Tensor β)), ValidValues users values →
    xs.length = n → originalDynamic f values xs shape users = some rs →
      ∃ rs', newOps.eval f values xs = some rs' ∧ List.Forall₂ Same rs' rs

/-! ### Where the common slice is -/

/-- The slice that spans the users in a dimension, from the first start to the last limit, or the size of the
largest one, where the start is no constant. -/
inductive Spanning (users : List DynamicSliceOp) (d : Nat) : Option Int → Nat → Prop
  | constant {start : Int} {size : Nat} (hstart : ∃ u ∈ users, u.constIdx d = some start)
      (hlimit : ∃ u ∈ users, ∃ c, u.constIdx d = some c ∧ c + coord u.sizes d = start + size)
      (hall : ∀ u ∈ users, ∃ c, u.constIdx d = some c ∧ start ≤ c ∧ c + coord u.sizes d ≤ start + size) :
      Spanning users d (some start) size
  | value {size : Nat} (hsize : ∃ u ∈ users, coord u.sizes d = size)
      (hall : ∀ u ∈ users, u.constIdx d = none ∧ coord u.sizes d ≤ size) : Spanning users d none size

def offset (user : DynamicSliceOp) (d : Nat) : Option Int → Int
  | some start => if start = -1 then 0 else (user.constIdx d).getD 0 - start
  | none => 0

def commonStart (op : DynamicSliceOp) (d : Nat) (values : Nat → Int) (start : Option Int) : Start :=
  (newStart op d (start.getD (-1))).start op.indexType values

/-- The common slice is well formed, and it is clamped as far as each user is, unless this does not matter. -/
structure CommonInPlace (op : DynamicSliceOp) (users : List DynamicSliceOp) (shape : List Nat)
    (constant : Prop) : Prop where
  rank : shape ≠ []
  fits : ∀ d < shape.length, ∀ start size, Spanning users d start size → size ≤ coord shape d
  /-- Where it is made a static slice, its starts are not negative. -/
  nonneg : (∀ d < shape.length, ∀ start size, Spanning users d start size →
      ∃ c : Int, (commonStart op d (fun _ => 0) start).getSExtValue = some c ∧ c + size ≤ coord shape d) →
    ∀ d < shape.length, ∀ start size, Spanning users d start size →
      ∀ c : Int, (commonStart op d (fun _ => 0) start).getSExtValue = some c → 0 ≤ c
  clamped : ∀ values, ValidValues users values → ∀ u ∈ users, constant ∨ (∃ d < shape.length, coord u.sizes d = 0) ∨
      ∀ d < shape.length, ∀ start size, Spanning users d start size →
        clampStart (coord shape d) size (commonStart op d values start).value + offset u d start =
          clampStart (coord shape d) (coord u.sizes d) ((u.startAt d).start u.indexType values).value

/-! ### The loop over the users -/

variable {u : DynamicSliceOp}

section

variable {op : DynamicSliceOp} {users us : List DynamicSliceOp} {d : Nat} {common common' : Int × Nat}

/-- The users that were gone through, where their starts are constants. -/
structure Constants (users : List DynamicSliceOp) (d : Nat) (common : Int × Nat) : Prop where
  start_mem : ∃ u ∈ users, u.constIdx d = some common.1
  limit_mem : ∃ u ∈ users, ∃ c, u.constIdx d = some c ∧ c + coord u.sizes d = common.1 + common.2
  all : ∀ u ∈ users, ∃ c, u.constIdx d = some c ∧ common.1 ≤ c ∧ c + coord u.sizes d ≤ common.1 + common.2

/-- The users that were gone through, where they share a start. -/
structure Shared (op : DynamicSliceOp) (users : List DynamicSliceOp) (d : Nat) (common : Int × Nat) : Prop where
  start_eq : common.1 = -1
  size_mem : ∃ u ∈ users, coord u.sizes d = common.2
  all : ∀ u ∈ users, u.constIdx d = none ∧ u.startAt d = op.startAt d ∧ coord u.sizes d ≤ common.2

theorem constIdx_eq_none_of_startAt (h : op.constIdx d = none) (heq : u.startAt d = op.startAt d) :
    u.constIdx d = none := by
  rw [DynamicSliceOp.constIdx] at h ⊢
  rw [heq]
  cases hop : op.startAt d with
  | constant c =>
    rw [hop] at h
    cases h
  | value v => rfl

theorem constants_self {c : Int} (h : op.constIdx d = some c) : Constants [op] d (c, coord op.sizes d) :=
  ⟨⟨op, mem_singleton_self op, h⟩, ⟨op, mem_singleton_self op, c, h, rfl⟩, fun u hu => by
    rw [mem_singleton.mp hu]
    exact ⟨c, h, le_rfl, le_rfl⟩⟩

theorem shared_self (h : op.constIdx d = none) : Shared op [op] d (-1, coord op.sizes d) :=
  ⟨rfl, ⟨op, mem_singleton_self op, rfl⟩, fun u hu => by
    rw [mem_singleton.mp hu]
    exact ⟨h, rfl, le_rfl⟩⟩

theorem Constants.add (h : Constants us d common) (hop : op ∈ us)
    (hadd : addDynamicUser op d common u = some common') : Constants (u :: us) d common' := by
  rw [addDynamicUser] at hadd
  split at hadd
  · rename_i c hc
    split at hadd
    · cases hadd
    · obtain ⟨v, hv, hstart⟩ := h.start_mem
      obtain ⟨w, hw, cw, hcw, hlimit⟩ := h.limit_mem
      have hnonneg : max (c + coord u.sizes d) (common.1 + common.2) - min c common.1 =
          ((max (c + coord u.sizes d) (common.1 + common.2) - min c common.1).toNat : Int) := by
        rw [Int.toNat_of_nonneg (by omega)]
      cases hadd
      refine ⟨?_, ?_, ?_⟩
      · rcases min_choice c common.1 with hmin | hmin
        · exact ⟨u, mem_cons_self, by rw [hc, hmin]⟩
        · exact ⟨v, mem_cons_of_mem _ hv, by rw [hstart, hmin]⟩
      · rcases max_choice (c + coord u.sizes d) (common.1 + common.2) with hmax | hmax
        · exact ⟨u, mem_cons_self, c, hc, by dsimp only; omega⟩
        · exact ⟨w, mem_cons_of_mem _ hw, cw, hcw, by dsimp only; omega⟩
      · refine forall_mem_cons.mpr ⟨⟨c, hc, min_le_left _ _, by dsimp only; omega⟩, fun v hv => ?_⟩
        obtain ⟨cv, hcv, hle, hlimit⟩ := h.all v hv
        exact ⟨cv, hcv, (min_le_right _ _).trans hle, by dsimp only; omega⟩
  · rename_i hnone
    split at hadd
    · cases hadd
    · rename_i hstart
      obtain ⟨c, hc, -⟩ := h.all op hop
      rw [constIdx_eq_none_of_startAt hnone (not_not.mp hstart).symm] at hc
      cases hc

theorem Shared.add (h : Shared op us d common) (hadd : addDynamicUser op d common u = some common') :
    Shared op (u :: us) d common' := by
  rw [addDynamicUser, h.start_eq] at hadd
  split at hadd
  · rw [if_pos rfl] at hadd
    cases hadd
  · rename_i hnone
    split at hadd
    · cases hadd
    · rename_i hstart
      cases hadd
      obtain ⟨v, hv, hsize⟩ := h.size_mem
      refine ⟨rfl, ?_, forall_mem_cons.mpr ⟨⟨hnone, not_not.mp hstart, le_max_right _ _⟩, fun v hv => ?_⟩⟩
      · rcases max_choice common.2 (coord u.sizes d) with hmax | hmax
        · exact ⟨v, mem_cons_of_mem _ hv, hsize.trans hmax.symm⟩
        · exact ⟨u, mem_cons_self, hmax.symm⟩
      · obtain ⟨hvnone, hvstart, hle⟩ := h.all v hv
        exact ⟨hvnone, hvstart, hle.trans (le_max_left _ _)⟩

theorem Constants.of_mem_iff (h : Constants us d common) (hmem : ∀ u, u ∈ us ↔ u ∈ users) :
    Constants users d common := by
  obtain ⟨v, hv, hstart⟩ := h.start_mem
  obtain ⟨w, hw, hlimit⟩ := h.limit_mem
  exact ⟨⟨v, (hmem v).mp hv, hstart⟩, ⟨w, (hmem w).mp hw, hlimit⟩, fun u hu => h.all u ((hmem u).mpr hu)⟩

theorem Shared.of_mem_iff (h : Shared op us d common) (hmem : ∀ u, u ∈ us ↔ u ∈ users) :
    Shared op users d common := by
  obtain ⟨v, hv, hsize⟩ := h.size_mem
  exact ⟨h.start_eq, ⟨v, (hmem v).mp hv, hsize⟩, fun u hu => h.all u ((hmem u).mpr hu)⟩

theorem foldlM_addDynamicUser (hop : op ∈ us) (h : Constants us d common ∨ Shared op us d common)
    (hfold : users.foldlM (addDynamicUser op d) common = some common') :
    Constants (users.reverse ++ us) d common' ∨ Shared op (users.reverse ++ us) d common' := by
  induction users generalizing us common with
  | nil =>
    cases hfold
    exact h
  | cons u users ih =>
    rw [foldlM_cons] at hfold
    obtain ⟨mid, hmid, hfold⟩ := bind_eq_some_iff.mp hfold
    rw [reverse_cons, append_assoc, singleton_append]
    exact ih (mem_cons_of_mem _ hop) (h.imp (·.add hop hmid) (·.add hmid)) hfold

theorem commonDim_spec (hop : op ∈ users) (h : commonDim op users d = some common) :
    Constants users d common ∨ Shared op users d common := by
  have hmem : ∀ u, u ∈ users.reverse ++ [op] ↔ u ∈ users := by
    intro u
    rw [mem_append, mem_reverse, mem_singleton]
    refine ⟨fun h => h.elim id ?_, .inl⟩
    rintro rfl
    exact hop
  have hself : Constants [op] d ((op.constIdx d).getD (-1), coord op.sizes d) ∨
      Shared op [op] d ((op.constIdx d).getD (-1), coord op.sizes d) := by
    cases hc : op.constIdx d with
    | none => exact .inr (shared_self hc)
    | some c => exact .inl (constants_self hc)
  exact (foldlM_addDynamicUser (mem_singleton_self op) hself h).imp (·.of_mem_iff hmem)
    (·.of_mem_iff hmem)

theorem Constants.spanning (h : Constants users d common) : Spanning users d (some common.1) common.2 :=
  .constant h.start_mem h.limit_mem h.all

theorem Shared.spanning (h : Shared op users d common) : Spanning users d none common.2 :=
  .value h.size_mem fun u hu => ⟨(h.all u hu).1, (h.all u hu).2.2⟩

theorem Spanning.unique {start start' : Option Int} {size size' : Nat} (h : Spanning users d start size)
    (h' : Spanning users d start' size') : start = start' ∧ size = size' := by
  cases h with
  | constant hstart hlimit hall =>
    rename_i start
    obtain ⟨v, hv, hstart⟩ := hstart
    obtain ⟨w, hw, c, hc, hlimit⟩ := hlimit
    cases h' with
    | constant hstart' hlimit' hall' =>
      rename_i start'
      obtain ⟨v', hv', hstart'⟩ := hstart'
      obtain ⟨w', hw', c', hc', hlimit'⟩ := hlimit'
      obtain ⟨a, ha, hle, -⟩ := hall' v hv
      cases hstart.symm.trans ha
      obtain ⟨a', ha', hle', -⟩ := hall v' hv'
      cases hstart'.symm.trans ha'
      obtain ⟨b, hb, -, hble⟩ := hall' w hw
      cases hc.symm.trans hb
      obtain ⟨b', hb', -, hble'⟩ := hall w' hw'
      cases hc'.symm.trans hb'
      obtain rfl := le_antisymm hle hle'
      exact ⟨rfl, by omega⟩
    | value _ hall' =>
      rw [(hall' v hv).1] at hstart
      cases hstart
  | value hsize hall =>
    obtain ⟨v, hv, rfl⟩ := hsize
    cases h' with
    | constant hstart' _ _ =>
      obtain ⟨v', hv', hstart'⟩ := hstart'
      rw [(hall v' hv').1] at hstart'
      cases hstart'
    | value hsize' hall' =>
      obtain ⟨v', hv', rfl⟩ := hsize'
      exact ⟨rfl, le_antisymm (hall' v hv).2 (hall v' hv').2⟩

theorem commonDim_places (hop : op ∈ users) (h : commonDim op users d = some common) :
    ∃ start, start.getD (-1) = common.1 ∧ Spanning users d start common.2 ∧ ∀ u ∈ users,
      0 ≤ offset u d start ∧ offset u d start + coord u.sizes d ≤ common.2 ∧
        newDynamicUser u d common = some ⟨offset u d start, offset u d start + coord u.sizes d, 1⟩ := by
  rcases commonDim_spec hop h with hconstants | hshared
  · refine ⟨some common.1, rfl, hconstants.spanning, fun u hu => ?_⟩
    obtain ⟨c, hc, hle, hlimit⟩ := hconstants.all u hu
    rw [offset, newDynamicUser, hc]
    split
    · exact ⟨le_rfl, by omega, by rw [zero_add]⟩
    · rw [getD_some]
      exact ⟨by omega, by omega, rfl⟩
  · refine ⟨none, hshared.start_eq.symm, hshared.spanning, fun u hu => ?_⟩
    obtain ⟨-, -, hle⟩ := hshared.all u hu
    rw [offset, newDynamicUser, if_pos hshared.start_eq, zero_add]
    exact ⟨le_rfl, by exact_mod_cast hle, rfl⟩

end

/-! ### What the users get -/

section

variable {α β : Type} {f : List α → β} {values : Nat → Int} {shape sizes : List Nat} {x t z : Tensor α}
  {xs : List (Tensor α)} {rs : List (Tensor β)} {op : DynamicSliceOp} {users : List DynamicSliceOp} {n : Nat}

theorem dynamicSliceOk_of_create {starts : List Start} (hstarts : starts.length = x.shape.length)
    (hsizes : sizes.length = x.shape.length) (h : DynamicSliceOpCreate starts sizes x = some z) :
    DynamicSliceOk x.shape sizes starts.length := by
  rw [DynamicSliceOpCreate] at h
  split at h
  · rename_i ds hds
    obtain ⟨hlen, hget⟩ := (allSome_zipWith3_iff (hsizes.trans hstarts.symm) hstarts.symm).mp hds
    refine ⟨hstarts, forall₂_iff_get.mpr ⟨hsizes, fun d hd hd' => ?_⟩⟩
    have hds' : d < ds.length := hlen.symm ▸ hstarts.symm ▸ hd'
    have hs : d < starts.length := hstarts.symm ▸ hd'
    obtain ⟨c, -, hle, heq⟩ := constantSlice_eq_some.mp
      (hget d _ _ (getElem?_eq_getElem hs) (getElem?_eq_getElem hds'))
    have hnonneg : 0 ≤ c := by
      have hstart := start_nonneg_of_sliceOpCreate h hds' hd'
      rwa [heq] at hstart
    rw [coord_eq_getElem hd, coord_eq_getElem hd'] at hle
    rw [get_eq_getElem, get_eq_getElem]
    dsimp only
    omega
  · obtain ⟨hok, -⟩ := gathers_dynamicSlice h
    rwa [length_map] at hok

theorem value_startsAt (u : DynamicSliceOp) (values : Nat → Int) {d : Nat} (hd : d < u.starts.length) :
    ((u.startsAt values).map Start.value).getD d 0 = ((u.startAt d).start u.indexType values).value := by
  rw [DynamicSliceOp.startsAt, DynamicSliceOp.startAt, List.map_map, getD_eq_getElem _ _ (by
    rwa [length_map]), getElem_map, getD_eq_getElem _ _ hd]
  rfl

def userSource (shape : List Nat) (values : Nat → Int) (u : DynamicSliceOp) (d k : Nat) : Nat :=
  clampStart (coord shape d) (coord u.sizes d) ((u.startAt d).start u.indexType values).value + k

def UserOk (shape : List Nat) (u : DynamicSliceOp) : Prop :=
  DynamicSliceOk shape u.sizes u.starts.length

theorem dynamicSlice_iff : UserOk t.shape u ↔
    ∃ r, dynamicSlice ((u.startsAt values).map Start.value) u.sizes t = some r := by
  have hlen : ((u.startsAt values).map Start.value).length = u.starts.length := by
    rw [DynamicSliceOp.startsAt, List.map_map, length_map]
  constructor
  · intro h
    exact ⟨_, if_pos (hlen.symm ▸ h)⟩
  · rintro ⟨r, hr⟩
    rw [UserOk, ← hlen]
    exact (gathers_dynamicSlice hr).1

theorem gathers_user {r : Tensor α} (ht : t.shape = shape)
    (h : dynamicSlice ((u.startsAt values).map Start.value) u.sizes t = some r) :
    Gathers u.sizes (userSource shape values u) t r := by
  obtain ⟨hok, hgathers⟩ := gathers_dynamicSlice h
  have huser : UserOk t.shape u := dynamicSlice_iff.mpr ⟨r, h⟩
  refine hgathers.congr fun d hd k _ => ?_
  rw [huser.2.length_eq] at hd
  rw [coord_clampStarts hok.1 hok.2.length_eq hd, value_startsAt u values (huser.1.symm ▸ hd), userSource, ht]

theorem eval_dynamicUsers (h : originalDynamic f values xs shape users = some rs) :
    ∃ y, elementwise f shape xs = some y ∧ Forall₂ (fun u r =>
      Gathers u.sizes (userSource shape values u) y r) users rs ∧ ∀ u ∈ users, UserOk shape u := by
  obtain ⟨y, hy, hrs⟩ := bind_eq_some_iff.mp h
  obtain ⟨-, hyeq⟩ := eq_of_elementwise hy
  have hshape : y.shape = shape := by rw [hyeq]
  have hall := allSome_map_iff.mp hrs
  refine ⟨y, hy, hall.imp fun u r hr => gathers_user hshape hr, fun u hu => ?_⟩
  obtain ⟨i, hi, rfl⟩ := getElem_of_mem hu
  rw [← hshape]
  exact dynamicSlice_iff.mpr ⟨_, (forall₂_iff_get.mp hall).2 i hi (hall.length_eq ▸ hi)⟩

theorem exists_originalDynamic (values : Nat → Int) {y : Tensor β} (hy : elementwise f shape xs = some y)
    (hok : ∀ u ∈ users, UserOk shape u) : ∃ rs, originalDynamic f values xs shape users = some rs := by
  obtain ⟨-, hyeq⟩ := eq_of_elementwise hy
  have hshape : y.shape = shape := by rw [hyeq]
  have hall : ∀ r ∈ users.map fun u => dynamicSlice ((u.startsAt values).map Start.value) u.sizes y,
      ∃ b, r = some b := by
    intro r hr
    obtain ⟨u, hu, rfl⟩ := mem_map.mp hr
    exact dynamicSlice_iff.mp (hshape.symm ▸ hok u hu)
  obtain ⟨rs, hrs⟩ := exists_allSome_iff.mpr hall
  exact ⟨rs, bind_eq_some_iff.mpr ⟨y, hy, hrs⟩⟩

theorem preserved_single_dynamic (h : originalDynamic f values xs shape [op] = some rs) :
    ∃ rs', (NewDynamicOps.single op).eval f values xs = some rs' ∧ Forall₂ Same rs' rs := by
  obtain ⟨y, hy, hall, hok⟩ := eval_dynamicUsers h
  have hxs := (eq_of_elementwise hy).1
  have hops : ∀ t ∈ xs.map (dynamicSlice ((op.startsAt values).map Start.value) op.sizes), ∃ b, t = some b := by
    intro t ht
    obtain ⟨x, hx, rfl⟩ := mem_map.mp ht
    exact dynamicSlice_iff.mp ((hxs x hx).symm ▸ hok op (mem_singleton_self op))
  obtain ⟨ops, hops⟩ := exists_allSome_iff.mpr hops
  have hgathers : Forall₂ (Gathers op.sizes (userSource shape values op)) xs ops := by
    have heach := allSome_map_iff.mp hops
    refine forall₂_iff_get.mpr ⟨heach.length_eq, fun i hi hi' => ?_⟩
    exact gathers_user (hxs _ (getElem_mem hi)) ((forall₂_iff_get.mp heach).2 i hi hi')
  obtain ⟨nex, hnex, hnexgathers⟩ := gathers_elementwise hy hgathers
  cases hall with
  | cons hr hnil =>
    cases hnil
    refine ⟨[nex], ?_, .cons (hnexgathers.same hr) .nil⟩
    rw [NewDynamicOps.eval, hops]
    simp only [bind_eq_bind, bind_some, hnex]
    rfl

end

/-! ### The common slice -/

section

variable {α β : Type} {f : List α → β} {values : Nat → Int} {shape : List Nat} {xs : List (Tensor α)}
  {rs : List (Tensor β)} {op : DynamicSliceOp} {users : List DynamicSliceOp} {n elemBlock : Nat}
  {common : List (Int × Nat)} {start : Nat → Option Int}

structure Merged (op : DynamicSliceOp) (users : List DynamicSliceOp) (shape : List Nat)
    (common : List (Int × Nat)) (start : Nat → Option Int) : Prop where
  length_eq : common.length = shape.length
  start_eq : ∀ d < shape.length, (start d).getD (-1) = (common.getD d (-1, 0)).1
  spanning : ∀ d < shape.length, Spanning users d (start d) (coord (common.map Prod.snd) d)
  offset_le : ∀ u ∈ users, ∀ d < shape.length, 0 ≤ offset u d (start d) ∧
    offset u d (start d) + coord u.sizes d ≤ coord (common.map Prod.snd) d

def placedUser (rank : Nat) (start : Nat → Option Int) (u : DynamicSliceOp) : List SliceDim :=
  (List.range rank).map fun d => ⟨offset u d (start d), offset u d (start d) + coord u.sizes d, 1⟩

def mergedOps (op : DynamicSliceOp) (users : List DynamicSliceOp) (shape : List Nat) (common : List (Int × Nat))
    (start : Nat → Option Int) : NewDynamicOps :=
  .common (op.starts.head?.map fun _ => op.indexType) (common.mapIdx fun d c => newStart op d c.1)
    (common.map Prod.snd) (users.map (placedUser shape.length start))

theorem exists_merged {newOps : NewDynamicOps} (hop : op ∈ users) (hok : ∀ u ∈ users, UserOk shape u)
    (hne : users.length ≠ 1) (hnew : DynamicSliceElementwise elemBlock op (users.map some) = some newOps) :
    ∃ common start, Merged op users shape common start ∧ newOps = mergedOps op users shape common start := by
  rw [DynamicSliceElementwise, length_map, allSome_map_some] at hnew
  split at hnew
  · cases hnew
  simp only [bind_eq_bind, bind_some] at hnew
  split at hnew
  · obtain ⟨common, hcommon, hnew⟩ := bind_eq_some_iff.mp hnew
    obtain ⟨newUsers, hnewUsers, hnew⟩ := bind_eq_some_iff.mp hnew
    have hrank := (hok op hop).1
    have hall := allSome_map_iff.mp hcommon
    have hlen : common.length = shape.length := by
      rw [← hall.length_eq, length_range, hrank]
    have hdim : ∀ d < shape.length, commonDim op users d = some (common.getD d (-1, 0)) := by
      intro d hd
      have hd' : d < common.length := hlen.symm ▸ hd
      have hat := (forall₂_iff_get.mp hall).2 d (by rwa [length_range, hrank]) hd'
      rw [get_eq_getElem, get_eq_getElem, getElem_range] at hat
      rwa [getD_eq_getElem _ _ hd']
    have hplaces := fun d (hd : d < shape.length) => commonDim_places hop (hdim d hd)
    choose! start hstart hspanning hplaced using hplaces
    have hsnd : ∀ d < shape.length, coord (common.map Prod.snd) d = (common.getD d (-1, 0)).2 := by
      intro d hd
      rw [coord_map _ _ (hlen.symm ▸ hd), getD_eq_getElem _ _ (hlen.symm ▸ hd)]
    have hmerged : Merged op users shape common start := by
      refine ⟨hlen, hstart, fun d hd => ?_, fun u hu d hd => ?_⟩
      · rw [hsnd d hd]
        exact hspanning d hd
      · rw [hsnd d hd]
        exact ⟨(hplaced d hd u hu).1, (hplaced d hd u hu).2.1⟩
    refine ⟨common, start, hmerged, ?_⟩
    have hplacedUsers : allSome (users.map fun dsOp => allSome (common.mapIdx (newDynamicUser dsOp))) =
        some (users.map (placedUser shape.length start)) := by
      rw [allSome_eq_some_iff, List.map_map]
      refine map_congr_left fun u hu => allSome_eq_some_iff.mpr ?_
      refine ext_getElem (by simp [placedUser, hlen]) fun d hd hd' => ?_
      rw [length_mapIdx, hlen] at hd
      have hat := (hplaced d hd u hu).2.2
      rw [getD_eq_getElem _ _ (hlen.symm ▸ hd)] at hat
      rw [getElem_mapIdx, hat, getElem_map]
      simp [placedUser]
    cases hnewUsers.symm.trans hplacedUsers
    exact (some.inj hnew).symm
  · cases hnew

def newStarts (op : DynamicSliceOp) (common : List (Int × Nat)) (values : Nat → Int) : List Start :=
  (common.mapIdx fun d c => newStart op d c.1).map (·.start op.indexType values)

theorem length_newStarts (values : Nat → Int) (h : Merged op users shape common start) :
    (newStarts op common values).length = shape.length := by
  rw [newStarts, length_map, length_mapIdx, h.length_eq]

theorem getElem_newStarts (values : Nat → Int) (h : Merged op users shape common start) {d : Nat}
    (hd : d < shape.length) : (newStarts op common values)[d]? = some (commonStart op d values (start d)) := by
  have hd' : d < common.length := h.length_eq.symm ▸ hd
  have hstart := h.start_eq d hd
  rw [getD_eq_getElem _ _ hd'] at hstart
  rw [newStarts, getElem?_map, getElem?_mapIdx, getElem?_eq_getElem hd', map_some, map_some, commonStart, hstart]

theorem valid_newStarts (h : Merged op users shape common start) (hop : op ∈ users)
    (hrank : op.starts.length = shape.length) (hvalid : ValidValues users values) :
    ∀ s ∈ newStarts op common values, s.Valid := by
  intro s hs
  obtain ⟨d, hd, rfl⟩ := getElem_of_mem hs
  have hd' : d < shape.length := length_newStarts values h ▸ hd
  have hget := getElem_newStarts values h hd'
  rw [getElem?_eq_getElem hd] at hget
  rw [some.inj hget, commonStart, newStart]
  split
  · exact makeAttr_valid _ _
  · refine hvalid op hop _ (mem_map.mpr ⟨op.startAt d, ?_, rfl⟩)
    rw [DynamicSliceOp.startAt, getD_eq_getElem _ _ (hrank.symm ▸ hd')]
    exact getElem_mem _

theorem getSExtValue_start (s : StartIndex) (type : IntType) (values values' : Nat → Int) :
    (s.start type values).getSExtValue = (s.start type values').getSExtValue := by
  cases s with
  | constant c | value v => rfl

theorem createsWhen_newStarts_iff (h : Merged op users shape common start) :
    CreatesWhen (newStarts op common values) (common.map Prod.snd) shape ↔
      ((∀ d < shape.length, ∃ c : Int, (commonStart op d (fun _ => 0) (start d)).getSExtValue = some c ∧
        c + coord (common.map Prod.snd) d ≤ coord shape d) →
      ∀ d < shape.length, ∀ c : Int, (commonStart op d (fun _ => 0) (start d)).getSExtValue = some c → 0 ≤ c) := by
  have hext : ∀ d, (commonStart op d values (start d)).getSExtValue =
      (commonStart op d (fun _ => 0) (start d)).getSExtValue := fun d => getSExtValue_start _ _ _ _
  have hlen := length_newStarts values h
  rw [CreatesWhen]
  constructor
  · intro hcreates hall d hd c hc
    refine hcreates (fun d s hs => ?_) _ (mem_of_getElem? (getElem_newStarts values h hd)) c ((hext d).trans hc)
    have hd' : d < shape.length := hlen ▸ (List.getElem?_eq_some_iff.mp hs).1
    rw [getElem_newStarts values h hd'] at hs
    rw [← some.inj hs, hext]
    exact hall d hd'
  · intro hnonneg hall s hs c hc
    obtain ⟨d, hd, rfl⟩ := getElem_of_mem hs
    have hd' : d < shape.length := hlen ▸ hd
    have hget := getElem_newStarts values h hd'
    rw [getElem?_eq_getElem hd] at hget
    rw [some.inj hget, hext] at hc
    refine hnonneg (fun e he => ?_) d hd' c hc
    rw [← hext]
    exact hall e _ (getElem_newStarts values h he)

def mergedSource (shape : List Nat) (values : Nat → Int) (op : DynamicSliceOp) (common : List (Int × Nat))
    (start : Nat → Option Int) (u : DynamicSliceOp) (d k : Nat) : Nat :=
  clampStart (coord shape d) (coord (common.map Prod.snd) d) (commonStart op d values (start d)).value +
    ((offset u d (start d)).toNat + k)

theorem eval_mergedOps {y : Tensor β} (h : Merged op users shape common start) (hop : op ∈ users)
    (hok : ∀ u ∈ users, UserOk shape u) (hvalid : ValidValues users values) (hshape : shape ≠ [])
    (hfits : ∀ d < shape.length, coord (common.map Prod.snd) d ≤ coord shape d)
    (hcreates : CreatesWhen (newStarts op common values) (common.map Prod.snd) shape)
    (hy : elementwise f shape xs = some y) :
    ∃ rs', (mergedOps op users shape common start).eval f values xs = some rs' ∧
      Forall₂ (fun u r' => Gathers u.sizes (mergedSource shape values op common start u) y r') users rs' := by
  have hxs := (eq_of_elementwise hy).1
  have hrank := (hok op hop).1
  have hlen := length_newStarts values h
  have hsizes : (common.map Prod.snd).length = shape.length := by rw [length_map, h.length_eq]
  have hsliceOk : DynamicSliceOk shape (common.map Prod.snd) ((newStarts op common values).map Start.value).length := by
    refine ⟨by rw [length_map, hlen], forall₂_iff_get.mpr ⟨hsizes, fun d hd hd' => ?_⟩⟩
    have hle := hfits d hd'
    rwa [coord_eq_getElem hd, coord_eq_getElem hd'] at hle
  have hcreate : ∀ x ∈ xs, ∃ z, DynamicSliceOpCreate (newStarts op common values) (common.map Prod.snd) x = some z ∧
      Gathers (common.map Prod.snd) (fun d k => clampStart (coord shape d) (coord (common.map Prod.snd) d)
        (commonStart op d values (start d)).value + k) x z := by
    intro x hx
    obtain rfl := hxs x hx
    obtain ⟨w, hw⟩ : ∃ w, dynamicSlice ((newStarts op common values).map Start.value) (common.map Prod.snd) x =
      some w := ⟨_, if_pos hsliceOk⟩
    obtain ⟨z, hz, hsame⟩ := creationPreserves_of_createsWhen (valid_newStarts h hop hrank hvalid) hcreates
      x w rfl hw
    have hgathers := (gathers_dynamicSlice hw).2.of_same hsame
    refine ⟨z, hz, hgathers.congr fun d hd k _ => ?_⟩
    have hd' : d < x.shape.length := hsizes ▸ hd
    rw [coord_clampStarts hsliceOk.1 hsizes hd', getD_eq_getElem?_getD, getElem?_map,
      getElem_newStarts values h hd', map_some, getD_some]
  obtain ⟨ops, hops⟩ : ∃ ops, allSome (xs.map (DynamicSliceOpCreate (newStarts op common values)
      (common.map Prod.snd))) = some ops := by
    refine exists_allSome_iff.mpr fun t ht => ?_
    obtain ⟨x, hx, rfl⟩ := mem_map.mp ht
    obtain ⟨z, hz, -⟩ := hcreate x hx
    exact ⟨z, hz⟩
  have hgathers : Forall₂ (Gathers (common.map Prod.snd) fun d k => clampStart (coord shape d)
      (coord (common.map Prod.snd) d) (commonStart op d values (start d)).value + k) xs ops := by
    have heach := allSome_map_iff.mp hops
    refine forall₂_iff_get.mpr ⟨heach.length_eq, fun i hi hi' => ?_⟩
    obtain ⟨z, hz, hzgathers⟩ := hcreate _ (getElem_mem hi)
    cases hz.symm.trans ((forall₂_iff_get.mp heach).2 i hi hi')
    exact hzgathers
  obtain ⟨nex, hnex, hnexgathers⟩ := gathers_elementwise hy hgathers
  have huser : ∀ u ∈ users, ∃ r', SliceOpCreate (placedUser shape.length start u) nex = some r' ∧
      Gathers u.sizes (mergedSource shape values op common start u) y r' := by
    intro u hu
    have hulength : u.sizes.length = shape.length := (hok u hu).2.length_eq
    have hplaced : (placedUser shape.length start u).length = nex.shape.length := by
      rw [placedUser, length_map, length_range, hnexgathers.shape_eq, hsizes]
    have hat : ∀ d < shape.length, dimAt (placedUser shape.length start u) d =
        ⟨offset u d (start d), offset u d (start d) + coord u.sizes d, 1⟩ := by
      intro d hd
      rw [dimAt, placedUser, getD_eq_getElem _ _ (by rwa [length_map, length_range]), getElem_map, getElem_range]
    have hrank' : nex.shape.length = shape.length := by rw [hnexgathers.shape_eq, hsizes]
    have hsliced : ∃ t, slice (placedUser shape.length start u) nex = some t := by
      refine exists_slice hplaced fun d hd => ?_
      rw [hrank'] at hd
      obtain ⟨hnonneg, hle⟩ := h.offset_le u hu d hd
      rw [hat d hd, hnexgathers.shape_eq]
      exact ⟨hnonneg, by dsimp only; omega, hle, Int.one_pos⟩
    obtain ⟨t, ht⟩ := hsliced
    obtain ⟨r', hr', hsame⟩ := sliceOpCreate_eq ht
    refine ⟨r', hr', ?_⟩
    obtain ⟨-, htok, -, htgathers⟩ := gathers_dims ht
    have husizes : (placedUser shape.length start u).map SliceDim.size = u.sizes := by
      refine ext_getElem (by rw [length_map, hplaced, hrank', hulength]) fun d hd hd' => ?_
      have hd₁ : d < shape.length := hulength ▸ hd'
      rw [← coord_eq_getElem, coord_map_size (by rwa [hplaced, hrank']), hat d hd₁, ← coord_eq_getElem hd',
        SliceDim.size]
      dsimp only
      omega
    have hlt : ∀ d < u.sizes.length, ∀ k < coord u.sizes d,
        (dimAt (placedUser shape.length start u) d).source k < coord (common.map Prod.snd) d := by
      intro d hd k hk
      have hd₁ : d < nex.shape.length := by rw [hrank', ← hulength]; exact hd
      have hd₂ : d < (placedUser shape.length start u).length := hplaced.symm ▸ hd₁
      have hlt := SliceDim.source_lt (htok d hd₁) (o := k) (by rwa [← coord_map_size hd₂, husizes])
      rwa [hnexgathers.shape_eq] at hlt
    rw [husizes] at htgathers
    refine ((hnexgathers.trans htgathers (hulength.trans hsizes.symm) hlt).congr fun d hd k hk => ?_).of_same
      hsame
    have hd₁ : d < shape.length := hulength ▸ hd
    have hnonneg := (h.offset_le u hu d hd₁).1
    rw [hat d hd₁, SliceDim.source, mergedSource]
    dsimp only
    omega
  have hall : ∀ r ∈ (users.map (placedUser shape.length start)).map (SliceOpCreate · nex), ∃ b, r = some b := by
    intro r hr
    rw [List.map_map] at hr
    obtain ⟨u, hu, rfl⟩ := mem_map.mp hr
    obtain ⟨r', hr', -⟩ := huser u hu
    exact ⟨r', hr'⟩
  obtain ⟨rs', hrs'⟩ := exists_allSome_iff.mpr hall
  refine ⟨rs', ?_, ?_⟩
  · obtain ⟨s, starts, hstarts⟩ := exists_cons_of_ne_nil
      (show op.starts ≠ [] from fun hnil => hshape (length_eq_zero_iff.mp (by rw [← hrank, hnil]; rfl)))
    rw [mergedOps, NewDynamicOps.eval, hstarts]
    simp only [head?_cons, map_some, bind_eq_bind, bind_some]
    rw [newStarts] at hops
    rw [hops]
    simp only [bind_some, hnex]
    exact hrs'
  · have heach := allSome_map_iff.mp hrs'
    rw [forall₂_map_left_iff] at heach
    refine forall₂_iff_get.mpr ⟨heach.length_eq, fun i hi hi' => ?_⟩
    obtain ⟨r', hr', hgathers⟩ := huser _ (getElem_mem hi)
    cases hr'.symm.trans ((forall₂_iff_get.mp heach).2 i hi hi')
    exact hgathers

theorem fits_of_eval {rs' : List (Tensor β)} (h : Merged op users shape common start)
    (hrank : op.starts.length = shape.length) (hxs : ∀ x ∈ xs, x.shape = shape) (hne : xs ≠ [])
    (heval : (mergedOps op users shape common start).eval f values xs = some rs') :
    shape ≠ [] ∧ (∀ d < shape.length, coord (common.map Prod.snd) d ≤ coord shape d) ∧
      CreatesWhen (newStarts op common values) (common.map Prod.snd) shape := by
  rw [mergedOps, NewDynamicOps.eval] at heval
  obtain ⟨type, htype, heval⟩ := bind_eq_some_iff.mp heval
  obtain ⟨s, hs, rfl⟩ := map_eq_some_iff.mp htype
  obtain ⟨ops, hops, -⟩ := bind_eq_some_iff.mp heval
  obtain ⟨x, xs, rfl⟩ := exists_cons_of_ne_nil hne
  obtain rfl := hxs x mem_cons_self
  have hlen := length_newStarts values h
  have hsizes : (common.map Prod.snd).length = x.shape.length := by rw [length_map, h.length_eq]
  have heach := allSome_map_iff.mp hops
  cases heach with
  | cons hz _ =>
    have hz' : DynamicSliceOpCreate (newStarts op common values) (common.map Prod.snd) x = some _ := hz
    have hok := dynamicSliceOk_of_create hlen hsizes hz'
    refine ⟨fun hnil => ?_, fun d hd => ?_, ?_⟩
    · have hstarts : op.starts = [] := length_eq_zero_iff.mp (hrank.trans (congrArg length hnil))
      rw [hstarts] at hs
      cases hs
    · rw [coord_eq_getElem (hsizes.symm ▸ hd), coord_eq_getElem hd]
      exact (forall₂_iff_get.mp hok.2).2 d (hsizes.symm ▸ hd) hd
    · obtain ⟨w, hw⟩ : ∃ w, dynamicSlice ((newStarts op common values).map Start.value) (common.map Prod.snd) x =
        some w := ⟨_, if_pos (by rw [length_map]; exact hok)⟩
      exact createsWhen_of_eq_some hw hz'

/-! ### The result -/

/-- What is asked of the spanning slice is asked of the one that the pattern finds. -/
theorem commonInPlace_iff (values : Nat → Int) (h : Merged op users shape common start) {constant : Prop} :
    CommonInPlace op users shape constant ↔ shape ≠ [] ∧
      (∀ d < shape.length, coord (common.map Prod.snd) d ≤ coord shape d) ∧
      CreatesWhen (newStarts op common values) (common.map Prod.snd) shape ∧
      ∀ values, ValidValues users values → ∀ u ∈ users, constant ∨
        (∃ d < shape.length, coord u.sizes d = 0) ∨ ∀ d < shape.length,
          clampStart (coord shape d) (coord (common.map Prod.snd) d) (commonStart op d values (start d)).value +
            offset u d (start d) =
              clampStart (coord shape d) (coord u.sizes d) ((u.startAt d).start u.indexType values).value := by
  have hforall : ∀ (P : Nat → Option Int → Nat → Prop), (∀ d < shape.length, ∀ start size,
      Spanning users d start size → P d start size) ↔
        ∀ d < shape.length, P d (start d) (coord (common.map Prod.snd) d) := by
    intro P
    refine forall₂_congr fun d hd => ⟨fun hall => hall _ _ (h.spanning d hd), fun hP s size hspan => ?_⟩
    obtain ⟨rfl, rfl⟩ := (h.spanning d hd).unique hspan
    exact hP
  rw [createsWhen_newStarts_iff h]
  constructor
  · rintro ⟨hrank, hfits, hnonneg, hclamped⟩
    simp only [hforall] at hfits hnonneg hclamped
    exact ⟨hrank, hfits, hnonneg, hclamped⟩
  · rintro ⟨hrank, hfits, hnonneg, hclamped⟩
    refine ⟨hrank, ?_, ?_, ?_⟩
    · simp only [hforall]
      exact hfits
    · simp only [hforall]
      exact hnonneg
    · simp only [hforall]
      exact hclamped

/-- A user gets the same elements if and only if the common slice is clamped as far as the user. -/
theorem sources_eq_iff (h : Merged op users shape common start) (hu : u ∈ users)
    (hulength : u.sizes.length = shape.length) :
    ((∃ d < u.sizes.length, coord u.sizes d = 0) ∨ ∀ d < u.sizes.length, ∀ k < coord u.sizes d,
      mergedSource shape values op common start u d k = userSource shape values u d k) ↔
    (∃ d < shape.length, coord u.sizes d = 0) ∨ ∀ d < shape.length,
      clampStart (coord shape d) (coord (common.map Prod.snd) d) (commonStart op d values (start d)).value +
        offset u d (start d) =
          clampStart (coord shape d) (coord u.sizes d) ((u.startAt d).start u.indexType values).value := by
  rw [hulength]
  refine or_congr_right' fun hpos => forall₂_congr fun d hd => ?_
  have hnonneg := (h.offset_le u hu d hd).1
  constructor
  · intro hall
    have hk : 0 < coord u.sizes d := pos_of_ne_zero fun hzero => hpos ⟨d, hd, hzero⟩
    have hat := hall 0 hk
    rw [mergedSource, userSource] at hat
    omega
  · intro hat k _
    rw [mergedSource, userSource]
    omega

/-- Where each user gets what it was, whatever the operands, it takes the same positions, or has no elements, or
there is one result only. -/
theorem places_of_preserves (h : Merged op users shape common start) (hop : op ∈ users)
    (hok : ∀ u ∈ users, UserOk shape u) (hvalid : ValidValues users values) (hshape : shape ≠ [])
    (hfits : ∀ d < shape.length, coord (common.map Prod.snd) d ≤ coord shape d)
    (hcreates : CreatesWhen (newStarts op common values) (common.map Prod.snd) shape)
    (hpreserves : DynamicPreserves f n shape users (mergedOps op users shape common start)) (hu : u ∈ users) :
    ConstantOn n f ∨ (∃ d < u.sizes.length, coord u.sizes d = 0) ∨ ∀ d < u.sizes.length,
      ∀ k < coord u.sizes d, mergedSource shape values op common start u d k = userSource shape values u d k := by
  have hiff : (∀ (xs : List (Tensor α)) (y z w : Tensor β), xs.length = n → elementwise f shape xs = some y →
      Gathers u.sizes (mergedSource shape values op common start u) y z →
        Gathers u.sizes (userSource shape values u) y w → Same z w) ↔ _ := same_gathers_elementwise_iff
  refine hiff.mp fun xs y z w hxs hy hz hw => ?_
  obtain ⟨rs, hrs⟩ := exists_originalDynamic values hy hok
  obtain ⟨y', hy', hall, -⟩ := eval_dynamicUsers hrs
  cases hy.symm.trans hy'
  obtain ⟨new, hnew, hsame⟩ := hpreserves values xs rs hvalid hxs hrs
  obtain ⟨new', hnew', hgathers⟩ := eval_mergedOps h hop hok hvalid hshape hfits hcreates hy
  cases hnew.symm.trans hnew'
  obtain ⟨i, hi, rfl⟩ := getElem_of_mem hu
  have hi' : i < new.length := hgathers.length_eq ▸ hi
  have hi'' : i < rs.length := hall.length_eq ▸ hi
  have hzi : Gathers users[i].sizes (mergedSource shape values op common start users[i]) y new[i] :=
    (forall₂_iff_get.mp hgathers).2 i hi hi'
  have hwi : Gathers users[i].sizes (userSource shape values users[i]) y rs[i] :=
    (forall₂_iff_get.mp hall).2 i hi hi''
  have hboth : Same new[i] rs[i] := (forall₂_iff_get.mp hsame).2 i hi' hi''
  exact ((hz.same hzi).trans hboth).trans (hwi.same hw)

/-- The dynamic slices are right if and only if the common slice fits and, for every start at run time, is clamped
as far as each of the users. -/
theorem dynamicSliceElementwise_preserves_iff {newOps : NewDynamicOps} (hop : op ∈ users) (hn : 0 < n)
    (hnew : DynamicSliceElementwise elemBlock op (users.map some) = some newOps) (hvalid : ValidValues users values)
    (hxs : xs.length = n) (h : originalDynamic f values xs shape users = some rs) :
    DynamicPreserves f n shape users newOps ↔
      users.length = 1 ∨ CommonInPlace op users shape (ConstantOn n f) := by
  obtain ⟨y, hy, hall, hok⟩ := eval_dynamicUsers h
  by_cases hone : users.length = 1
  · rw [DynamicSliceElementwise, length_map, if_pos hone] at hnew
    split at hnew
    · cases hnew
    cases hnew
    obtain ⟨u, rfl⟩ := length_eq_one_iff.mp hone
    obtain rfl := mem_singleton.mp hop
    exact ⟨fun _ => .inl rfl, fun _ values xs rs _ _ h => preserved_single_dynamic h⟩
  obtain ⟨common, start, hmerged, rfl⟩ := exists_merged hop hok hone hnew
  have hlen : ∀ u ∈ users, u.sizes.length = shape.length := fun u hu => (hok u hu).2.length_eq
  constructor
  · intro hpreserves
    obtain ⟨rs', hrs', -⟩ := hpreserves values xs rs hvalid hxs h
    have hne : xs ≠ [] := fun hnil => by
      rw [hnil, length_nil] at hxs
      omega
    obtain ⟨hshape, hfits, hcreates⟩ := fits_of_eval hmerged (hok op hop).1 (eq_of_elementwise hy).1 hne hrs'
    refine .inr ((commonInPlace_iff values hmerged).mpr ⟨hshape, hfits, hcreates, fun values' hvalid' u hu => ?_⟩)
    rw [← sources_eq_iff hmerged hu (hlen u hu)]
    refine places_of_preserves hmerged hop hok hvalid' hshape hfits ?_ hpreserves hu
    rwa [createsWhen_newStarts_iff hmerged] at hcreates ⊢
  · rintro (hone' | hplaces)
    · exact absurd hone' hone
    intro values' xs' rs' hvalid' hxs' h'
    obtain ⟨hshape, hfits, hcreates, hclamped⟩ := (commonInPlace_iff values' hmerged).mp hplaces
    obtain ⟨y', hy', hall', -⟩ := eval_dynamicUsers h'
    obtain ⟨new, hnew', hgathers⟩ := eval_mergedOps hmerged hop hok hvalid' hshape hfits hcreates hy'
    refine ⟨new, hnew', forall₂_iff_get.mpr ⟨hgathers.length_eq.symm.trans hall'.length_eq, fun i hi hi' => ?_⟩⟩
    have hi₀ : i < users.length := hgathers.length_eq.symm ▸ hi
    have hu := getElem_mem hi₀
    have hsources := hclamped values' hvalid' users[i] hu
    rw [← sources_eq_iff hmerged hu (hlen _ hu)] at hsources
    exact same_gathers_elementwise_iff.mpr hsources xs' y' _ _ hxs' hy'
      ((forall₂_iff_get.mp hgathers).2 i hi₀ hi) ((forall₂_iff_get.mp hall').2 i hi₀ hi')

end

/-! ### Slices of a sum of vectors -/

def vectors : List (Tensor Int) := [iota 6, iota 6]

def dynamicUser (start : StartIndex) (size : Nat) : DynamicSliceOp := ⟨0, ⟨32, false⟩, [start], [size]⟩

def constantUsers (a b : Int) (size : Nat) : List DynamicSliceOp :=
  [dynamicUser (.constant a) size, dynamicUser (.constant b) size]

theorem spanning_constantUsers : Spanning (constantUsers 1 3 2) 0 (some 1) 4 :=
  .constant ⟨dynamicUser (.constant 1) 2, by simp [constantUsers], rfl⟩
    ⟨dynamicUser (.constant 3) 2, by simp [constantUsers], 3, rfl, rfl⟩ fun u hu => by
      rcases mem_pair.mp hu with rfl | rfl
      · exact ⟨1, rfl, le_rfl, by decide⟩
      · exact ⟨3, rfl, by decide, le_rfl⟩

theorem commonInPlace_constantUsers (constant : Prop) :
    CommonInPlace (dynamicUser (.constant 1) 2) (constantUsers 1 3 2) [6] constant := by
  have hspan : ∀ d < [6].length, ∀ start size, Spanning (constantUsers 1 3 2) d start size →
      d = 0 ∧ start = some 1 ∧ size = 4 := by
    intro d hd start size hspan
    obtain rfl : d = 0 := Nat.lt_one_iff.mp hd
    obtain ⟨hstart, hsize⟩ := hspan.unique spanning_constantUsers
    exact ⟨rfl, hstart, hsize⟩
  refine ⟨cons_ne_nil _ _, fun d hd start size h => ?_, fun _ d hd start size h c hc => ?_,
    fun values _ u hu => .inr (.inr fun d hd start size h => ?_)⟩
  · obtain ⟨rfl, rfl, rfl⟩ := hspan d hd start size h
    decide
  · obtain ⟨rfl, rfl, rfl⟩ := hspan d hd start size h
    have hone : (1 : Int) = c := some.inj hc
    omega
  · obtain ⟨rfl, rfl, rfl⟩ := hspan d hd start size h
    rcases mem_pair.mp hu with rfl | rfl
    · rfl
    · rfl

end EnzymeJax.ElementwiseSlices
