import EnzymeJax.Communication.DUSLike

/-!
# Concatenations and extends of sharded tensors

`ConcatTwoDUSLike` and `ExtendDUSLike` treat what comes last in the result as an update of what comes first. The
select has no test when nothing comes first.
-/

namespace EnzymeJax

open Tensor List

variable {α : Type*}

section

variable (mesh : Mesh) (sharding : Sharding) (shape : List Nat) (dim low : Nat)

def toPads : List Nat :=
  List.zipWith (fun axes n =>
    let numDevices := numShards mesh axes
    if numDevices ≠ 1 ∧ n % numDevices ≠ 0 then numDevices - n % numDevices else 0) sharding shape

def evenShape : List Nat := List.zipWith (· + ·) shape (toPads mesh sharding shape)

/-- The select that concatenations and extends share: what is behind `low` is from the update. -/
def selectAlong (updateShape : List Nat) : Select where
  globalShape := evenShape mesh sharding shape
  localShape := localShape mesh sharding (evenShape mesh sharding shape)
  numDevices := sharding.map (numShards mesh)
  lowPads := (List.replicate shape.length 0).set dim low
  highPads := List.replicate shape.length 0
  updateShape := updateShape
  updatedDims := [dim]
  updatedShardedDims := [dim]

/-- What the rewritten program makes of an operand and an update, padded along the dimension. -/
def ComputesAlong [Zero α] (low₀ high₀ low₁ high₁ : Nat) (x₀ x₁ y : Tensor α) : Prop :=
  let zeros := List.replicate shape.length 0
  let toPads := toPads mesh sharding shape
  ∃ y₀ y₁ result, pad (padDims (zeros.set dim low₀) (toPads.set dim high₀)) 0 x₀ = some y₀ ∧
    pad (padDims (zeros.set dim low₁) (toPads.set dim high₁)) 0 x₁ = some y₁ ∧
    ManualComputation₂ mesh sharding
      (selectAlong mesh sharding shape dim low x₁.shape).multiDimensionalSelect y₀ y₁ result ∧
    result.shape = evenShape mesh sharding shape ∧ removePadding 0 0 shape result = some y

/-- There is something before the update, and the positions of a shard are values of 32 bits. -/
def HoldsAlong : Prop :=
  low ≠ 0 ∧ coord (localShape mesh sharding (evenShape mesh sharding shape)) dim ≤ 2 ^ 32

instance : Decidable (HoldsAlong mesh sharding shape dim low) := inferInstanceAs (Decidable (_ ∧ _))

end

section

variable {mesh : Mesh} {sharding : Sharding} {shape : List Nat} {dim low n lo hi : Nat}

section

variable (hrank : sharding.length = shape.length)

include hrank

theorem toPads_length : (toPads mesh sharding shape).length = shape.length := by
  rw [toPads, length_zipWith, hrank, min_self]

theorem evenShape_length : (evenShape mesh sharding shape).length = shape.length := by
  rw [evenShape, length_zipWith, toPads_length hrank, min_self]

theorem coord_evenShape {d : Nat} (hd : d < shape.length) :
    coord (evenShape mesh sharding shape) d = coord shape d + coord (toPads mesh sharding shape) d :=
  coord_zipWith hd ((toPads_length hrank).symm ▸ hd)

theorem le_evenShape : Forall₂ (· ≤ ·) shape (evenShape mesh sharding shape) := by
  rw [forall₂_iff_get]
  refine ⟨(evenShape_length hrank).symm, fun i hi hi' => ?_⟩
  simp only [get_eq_getElem, evenShape, getElem_zipWith]
  exact le_self_add

theorem divides_evenShape (hpos : ∀ axes ∈ sharding, 0 < numShards mesh axes) :
    Divides mesh sharding (evenShape mesh sharding shape) := by
  rw [Divides, forall₂_iff_get]
  refine ⟨by rw [evenShape_length hrank, hrank], fun i hi hi' => ?_⟩
  have hlt : i < shape.length := by rwa [evenShape_length hrank] at hi'
  simp only [get_eq_getElem, evenShape, toPads, getElem_zipWith]
  have hpos := hpos _ (getElem_mem hi)
  have hdiv := Nat.div_add_mod shape[i] (numShards mesh sharding[i])
  have hmod := Nat.mod_lt shape[i] hpos
  by_cases hone : numShards mesh sharding[i] = 1
  · rw [hone]
    exact Nat.one_dvd _
  by_cases heven : shape[i] % numShards mesh sharding[i] = 0
  · rw [if_neg fun h => h.2 heven]
    exact Nat.dvd_of_mod_eq_zero heven
  · rw [if_pos ⟨hone, heven⟩]
    refine ⟨shape[i] / numShards mesh sharding[i] + 1, ?_⟩
    rw [mul_add, mul_one]
    omega

end

theorem selectOk_along (updateShape : List Nat) (hok : ShardingOk mesh sharding)
    (hmesh : ∀ n ∈ mesh, 0 < n) (hdevices : mesh.prod < 2 ^ 31)
    (hone : ∀ axes ∈ sharding, axes.length = 1) (hrank : sharding.length = shape.length)
    (hd : dim < shape.length) (hsharded : numShards mesh (sharding.getD dim []) ≠ 1)
    (hdecodes : Decodes mesh sharding (evenShape mesh sharding shape)) (hlow : low ≤ coord shape dim)
    (hholds : HoldsAlong mesh sharding shape dim low) :
    SelectOk mesh sharding (selectAlong mesh sharding shape dim low updateShape) := by
  have hlen : (evenShape mesh sharding shape).length = shape.length := evenShape_length hrank
  have hpos : ∀ axes ∈ sharding, 0 < numShards mesh axes := by
    intro axes haxes
    refine prod_pos fun m hm => ?_
    obtain ⟨a, ha, rfl⟩ := mem_map.mp hm
    have hlt := hok.2 a (mem_flatten.mpr ⟨axes, haxes, ha⟩)
    rw [coord, getD_eq_getElem _ _ hlt]
    exact hmesh _ (getElem_mem hlt)
  have hglobal : coord (evenShape mesh sharding shape) dim = _ := coord_evenShape hrank hd
  have hlt : dim < sharding.length := hrank ▸ hd
  obtain ⟨a, ha⟩ := length_eq_one_iff.mp (hone _ (getElem_mem hlt))
  have haxis : sharding[dim]? = some [a] := by rw [getElem?_eq_getElem hlt, ha]
  have hlocal : coord (localShape mesh sharding (evenShape mesh sharding shape)) dim = _ :=
    coord_localShape haxis (hlen.symm ▸ hd)
  rw [getD_eq_getElem _ _ hlt, ha, numShards_one] at hsharded
  have haPos : 0 < coord mesh a := by
    have hpos := hpos _ (getElem_mem hlt)
    rwa [ha, numShards_one] at hpos
  have hlowPad : coord ((replicate shape.length 0).set dim low) dim = low :=
    coord_set_self (by rwa [length_replicate]) _
  have hhighPad : coord (replicate shape.length 0) dim = 0 := by simp [coord]
  have hne := hholds.1
  refine ⟨hok, hmesh, hdevices, hone, divides_evenShape hrank hpos, rfl, rfl, ?_, hdecodes,
    fun d hmem => ?_, fun d hmem => ?_, fun d hmem => ?_, fun d hmem => ?_, fun d hmem => ?_,
    fun d hmem => ?_, fun d hmem => ?_⟩
  · exact (length_set.trans length_replicate).trans hlen.symm
  all_goals obtain rfl : d = dim := mem_singleton.mp hmem
  · exact hlen.symm ▸ hd
  · exact hglobal ▸ lt_of_lt_of_le (lt_of_lt_of_le (pos_of_ne_zero hne) hlow)
      le_self_add
  · change coord (evenShape mesh sharding shape) d ≠ coord (localShape mesh sharding _) d
    rw [hlocal]
    exact (Nat.div_lt_self (by omega) (by omega)).ne'
  · change coord ((replicate shape.length 0).set d low) d ≤ coord (evenShape mesh sharding shape) d
    omega
  · exact fun hhigh => absurd hhighPad hhigh
  · exact .inl (hlowPad.symm ▸ hne)
  · exact hholds.2

variable {m low₀ high₀ low₁ high₁ : Nat}

theorem pad_eq [Zero α] {x : Tensor α} (hd : dim < shape.length) (hrank : sharding.length = shape.length)
    (hx : x.shape = shape.set dim n) (hsum : lo + n + hi = coord (evenShape mesh sharding (shape.set dim m)) dim) :
    ∃ y, pad (padDims ((replicate (shape.set dim m).length 0).set dim lo)
        ((toPads mesh sharding (shape.set dim m)).set dim hi)) 0 x = some y ∧
      y.shape = evenShape mesh sharding (shape.set dim m) ∧
      ∀ q ∈ indices (shape.set dim m), y.get q =
        if lo ≤ coord q dim ∧ coord q dim - lo < n then x.get (q.set dim (coord q dim - lo)) else 0 := by
  have hlen : (shape.set dim m).length = shape.length := length_set
  have hrank' : sharding.length = (shape.set dim m).length := hrank.trans hlen.symm
  have hpads : (toPads mesh sharding (shape.set dim m)).length = _ := toPads_length hrank'
  have hlows : ((replicate (shape.set dim m).length 0).set dim lo).length = x.shape.length := by
    rw [hx, length_set, length_replicate, hlen, length_set]
  have hhighs : ((toPads mesh sharding (shape.set dim m)).set dim hi).length = x.shape.length := by
    rw [hx, length_set, hpads, hlen, length_set]
  obtain ⟨y, hy, hshape, hget⟩ := pad_region (0 : α) hlows hhighs
  have hyShape : y.shape = evenShape mesh sharding (shape.set dim m) := by
    rw [hshape]
    refine ext_getElem ?_ fun i hi' hi'' => ?_
    · simp only [length_zipWith, hhighs, evenShape_length hrank', hx, length_set, length_replicate, min_self]
    · have hlt : i < shape.length := by rwa [evenShape_length hrank', hlen] at hi''
      simp only [getElem_zipWith, getElem_set, getElem_replicate, hx, evenShape]
      by_cases heq : dim = i
      · subst heq
        rw [coord, getD_eq_getElem _ _ hi''] at hsum
        simp only [evenShape, getElem_zipWith, getElem_set_self] at hsum
        rw [if_pos rfl, if_pos rfl, if_pos rfl, if_pos rfl, hsum]
      · rw [if_neg heq, if_neg heq, if_neg heq, if_neg heq, zero_add]
  refine ⟨y, hy, hyShape, fun q hq => ?_⟩
  have hqLength : q.length = shape.length := (length_of_mem_indices hq).trans hlen
  have hlow : ∀ d, coord ((replicate (shape.set dim m).length 0).set dim lo) d =
      if d = dim then lo else 0 := by
    intro d
    by_cases heq : d = dim
    · subst heq
      rw [if_pos rfl, coord_set_self (by rwa [length_replicate, hlen])]
    · rw [if_neg heq, coord, getD_eq_getElem?_getD, getElem?_set_ne (Ne.symm heq)]
      simp
  have hregion : InRegion ((replicate (shape.set dim m).length 0).set dim lo) x.shape q ↔
      lo ≤ coord q dim ∧ coord q dim - lo < n := by
    constructor
    · intro hin
      have hin := hin dim (hqLength.symm ▸ hd)
      rwa [hlow, if_pos rfl, hx, coord_set_self hd] at hin
    · intro hin d hdq
      rw [hlow, hx]
      by_cases heq : d = dim
      · subst heq
        rw [if_pos rfl, coord_set_self hd]
        exact hin
      · have hlt := coord_lt hq (hlen.symm ▸ hqLength ▸ hdq : d < (shape.set dim m).length)
        have hset : ∀ k, coord (shape.set dim k) d = coord shape d := by
          intro k
          rw [coord, coord, getD_eq_getElem?_getD, getD_eq_getElem?_getD, getElem?_set_ne (Ne.symm heq)]
        rw [hset] at hlt ⊢
        rw [if_neg heq]
        exact ⟨Nat.zero_le _, hlt⟩
  have hsub : lo ≤ coord q dim → zipWith (· - ·) q ((replicate (shape.set dim m).length 0).set dim lo) =
        q.set dim (coord q dim - lo) := by
    intro _
    refine ext_getElem (by simp [hqLength]) fun i hi hi' => ?_
    have hlt : i < q.length := by rwa [length_set] at hi'
    simp only [getElem_zipWith, getElem_set, getElem_replicate]
    by_cases heq : dim = i
    · subst heq
      rw [if_pos rfl, if_pos rfl, coord, getD_eq_getElem _ _ hlt]
    · rw [if_neg heq, if_neg heq, Nat.sub_zero]
  have hmem := hyShape ▸ indices_mono (le_evenShape hrank') hq
  by_cases hin : lo ≤ coord q dim ∧ coord q dim - lo < n
  · rw [if_pos hin, (hget q hmem).1 (hregion.mpr hin), hsub hin.1]
  · rw [if_neg hin, (hget q hmem).2 fun h => hin (hregion.mp h)]

theorem holdsAlong_of_computes [Zero α] {x₀ x₁ y : Tensor α} (hd : dim < shape.length)
    (h : ComputesAlong mesh sharding shape dim low low₀ high₀ low₁ high₁ x₀ x₁ y) :
    HoldsAlong mesh sharding shape dim low := by
  obtain ⟨y₀, y₁, result, -, -, ⟨-, -, locals, hlocals, -⟩, -⟩ := h
  obtain ⟨hsides, hsmall⟩ := Select.of_select_eq_some hlocals (cons_ne_nil dim [])
  refine ⟨fun hlow => hsides ?_, hsmall dim (mem_singleton_self dim)⟩
  have hleft : (selectAlong mesh sharding shape dim low x₁.shape).leftSide dim = none := by
    refine Select.leftSide_eq_none_iff.mpr ?_
    exact (coord_set_self (by rwa [length_replicate]) low).trans hlow
  have hright : (selectAlong mesh sharding shape dim low x₁.shape).rightSide dim = none := by
    refine Select.rightSide_eq_none_iff.mpr ?_
    simp [selectAlong, coord]
  change [dim].flatMap _ = []
  rw [flatMap_singleton, Select.sidesOf, hleft, hright]
  rfl

theorem exact_along [Zero α] {n₀ n₁ : Nat} {f₀ f₁ g : List Nat → Nat → α} {x₀ x₁ z : Tensor α}
    (hok : ShardingOk mesh sharding) (hmesh : ∀ n ∈ mesh, 0 < n) (hdevices : mesh.prod < 2 ^ 31)
    (hone : ∀ axes ∈ sharding, axes.length = 1) (hrank : sharding.length = shape.length)
    (hd : dim < shape.length) (hsharded : numShards mesh (sharding.getD dim []) ≠ 1)
    (hdecodes : Decodes mesh sharding (evenShape mesh sharding (shape.set dim m)))
    (hx₀ : Along dim shape n₀ f₀ x₀) (hx₁ : Along dim shape n₁ f₁ x₁) (hz : Along dim shape m g z)
    (hsum₀ : low₀ + n₀ + high₀ = coord (evenShape mesh sharding (shape.set dim m)) dim)
    (hsum₁ : low₁ + n₁ + high₁ = coord (evenShape mesh sharding (shape.set dim m)) dim) (hlow : low ≤ m)
    (hfront : ∀ idx k, k < low → low₀ ≤ k ∧ k - low₀ < n₀ ∧ f₀ idx (k - low₀) = g idx k)
    (hback : ∀ idx k, low ≤ k → k < m → low₁ ≤ k ∧ k - low₁ < n₁ ∧ f₁ idx (k - low₁) = g idx k)
    (hholds : HoldsAlong mesh sharding (shape.set dim m) dim low) :
    Exact (ComputesAlong mesh sharding (shape.set dim m) dim low low₀ high₀ low₁ high₁ x₀ x₁) z := by
  have hlen : (shape.set dim m).length = shape.length := length_set
  have hd' : dim < (shape.set dim m).length := hlen.symm ▸ hd
  have hrank' : sharding.length = (shape.set dim m).length := hrank.trans hlen.symm
  obtain ⟨y₀, hy₀, hshape₀, hget₀⟩ := pad_eq hd hrank hx₀.shape_eq hsum₀
  obtain ⟨y₁, hy₁, hshape₁, hget₁⟩ := pad_eq hd hrank hx₁.shape_eq hsum₁
  have hselect := selectOk_along x₁.shape hok hmesh hdevices hone hrank' hd' hsharded
    hdecodes ((coord_set_self hd m).symm ▸ hlow) hholds
  have hiff := hselect.select_exact_iff hshape₀ hshape₁ hz.shape_eq (pos_of_gt hd')
    (le_evenShape hrank')
  have hcomputes : ∀ y, ComputesAlong mesh sharding (shape.set dim m) dim low low₀ high₀ low₁ high₁
      x₀ x₁ y ↔ ∃ result, ManualComputation₂ mesh sharding
        (selectAlong mesh sharding (shape.set dim m) dim low x₁.shape).multiDimensionalSelect y₀ y₁
          result ∧
        result.shape = evenShape mesh sharding (shape.set dim m) ∧
        removePadding 0 0 (shape.set dim m) result = some y := by
    intro y
    constructor
    · rintro ⟨y₀', y₁', result, hy₀', hy₁', hrest⟩
      cases hy₀.symm.trans hy₀'
      cases hy₁.symm.trans hy₁'
      exact ⟨result, hrest⟩
    · rintro ⟨result, hrest⟩
      exact ⟨y₀, y₁, result, hy₀, hy₁, hrest⟩
  rw [exact_congr hcomputes]
  refine hiff.mpr fun q hq => ?_
  have hlt := coord_lt_of_mem_set hd hq
  have hin : (∃ d ∈ (selectAlong mesh sharding (shape.set dim m) dim low x₁.shape).updatedShardedDims,
      (selectAlong mesh sharding (shape.set dim m) dim low x₁.shape).InOperand d (coord q d)) ↔
      coord q dim < low := by
    have hlowPad : coord ((replicate (shape.set dim m).length 0).set dim low) dim = low :=
      coord_set_self (by rwa [length_replicate]) _
    have hhighPad : coord (replicate (shape.set dim m).length 0) dim = 0 := by simp [coord]
    constructor
    · rintro ⟨d, hmem, hor⟩
      obtain rfl : d = dim := mem_singleton.mp hmem
      exact hor.elim (fun hlt => hlowPad ▸ hlt) fun hhigh => absurd hhighPad hhigh.1
    · intro hlt
      exact ⟨dim, mem_singleton_self dim, .inl (hlowPad.symm ▸ hlt)⟩
  obtain ⟨hbase, -, heq⟩ := exists_line hd hq
  have hzGet := hz.get_eq _ hbase _ hlt
  rw [← heq] at hzGet
  rw [hzGet]
  by_cases hbefore : coord q dim < low
  · obtain ⟨hle, hlt₀, hf₀⟩ := hfront (q.set dim 0) _ hbefore
    have hxGet := hx₀.get_eq _ hbase _ hlt₀
    rw [set_set, hf₀] at hxGet
    rw [if_pos (hin.mpr hbefore), hget₀ q hq, if_pos ⟨hle, hlt₀⟩, hxGet]
  · obtain ⟨hle, hlt₁, hf₁⟩ := hback (q.set dim 0) _ (Nat.le_of_not_lt hbefore) hlt
    have hxGet := hx₁.get_eq _ hbase _ hlt₁
    rw [set_set, hf₁] at hxGet
    rw [if_neg fun h => hbefore (hin.mp h), hget₁ q hq, if_pos ⟨hle, hlt₁⟩, hxGet]

end

/-! ### The two patterns -/

namespace ConcatTwoDUSLike

def Fires (mesh : Mesh) (sharding : Sharding) (dim : Nat) : Prop :=
  (∀ axes ∈ sharding, axes.length = 1) ∧ numShards mesh (sharding.getD dim []) ≠ 1

instance (mesh : Mesh) (sharding : Sharding) (dim : Nat) : Decidable (Fires mesh sharding dim) :=
  inferInstanceAs (Decidable (_ ∧ _))

/-- What the rewritten program makes of two operands. -/
def Computes [Zero α] (mesh : Mesh) (sharding : Sharding) (dim : Nat) (x₀ x₁ y : Tensor α) : Prop :=
  let left := coord x₀.shape dim
  let right := coord x₁.shape dim
  let shape := x₀.shape.set dim (left + right)
  let concatDimSize := coord (evenShape mesh sharding shape) dim
  ComputesAlong mesh sharding shape dim left 0 (concatDimSize - left) left
    (concatDimSize - left - right) x₀ x₁ y

section

variable {mesh : Mesh} {sharding : Sharding} {shape : List Nat} {dim left right : Nat}

theorem exact_iff_holdsAlong [Zero α] (hok : ShardingOk mesh sharding) (hmesh : ∀ n ∈ mesh, 0 < n)
    (hdevices : mesh.prod < 2 ^ 31) (hrank : sharding.length = shape.length) (hd : dim < shape.length)
    (hfires : Fires mesh sharding dim)
    (hdecodes : Decodes mesh sharding (evenShape mesh sharding (shape.set dim (left + right)))) :
    (∀ x₀ x₁ : Tensor α, x₀.shape = shape.set dim left → x₁.shape = shape.set dim right →
      ∃ z, concatenate dim [x₀, x₁] = some z ∧ Exact (Computes mesh sharding dim x₀ x₁) z) ↔
    HoldsAlong mesh sharding (shape.set dim (left + right)) dim left := by
  have hlen : (shape.set dim (left + right)).length = shape.length := length_set
  have hglobal : coord (evenShape mesh sharding _) dim = _ :=
    coord_evenShape (hrank.trans hlen.symm) (hlen.symm ▸ hd)
  rw [coord_set_self hd] at hglobal
  have hcomputes : ∀ {x₀ x₁ y : Tensor α}, x₀.shape = shape.set dim left →
      x₁.shape = shape.set dim right → (Computes mesh sharding dim x₀ x₁ y ↔
        ComputesAlong mesh sharding (shape.set dim (left + right)) dim left 0
          (coord (evenShape mesh sharding (shape.set dim (left + right))) dim - left) left
          (coord (evenShape mesh sharding (shape.set dim (left + right))) dim - left - right)
          x₀ x₁ y) := by
    intro x₀ x₁ y hx₀ hx₁
    rw [Computes, hx₀, hx₁, coord_set_self hd, coord_set_self hd, set_set]
  constructor
  · intro hexact
    obtain ⟨z, -, ⟨y, hy⟩, -⟩ := hexact (splat _ 0) (splat _ 0) rfl rfl
    exact holdsAlong_of_computes (hlen.symm ▸ hd) ((hcomputes rfl rfl).mp hy)
  · intro hholds x₀ x₁ hx₀ hx₁
    have halong₀ := Along.of_shape hx₀
    have halong₁ := Along.of_shape hx₁
    obtain ⟨z, hz, halong⟩ := Along.concatenate_two hd halong₀ halong₁
    refine ⟨z, hz, (exact_congr fun y => hcomputes hx₀ hx₁).mpr ?_⟩
    refine exact_along hok hmesh hdevices hfires.1 hrank hd hfires.2 hdecodes halong₀ halong₁ halong
      (by omega) (by omega) le_self_add (fun idx k hk => ?_) (fun idx k hle hk => ?_) hholds
    · refine ⟨Nat.zero_le k, hk, ?_⟩
      rw [appendLine, if_pos hk]
      rfl
    · refine ⟨hle, by omega, ?_⟩
      rw [appendLine, if_neg (Nat.not_lt.mpr hle)]

end

end ConcatTwoDUSLike

namespace ExtendDUSLike

def Fires (mesh : Mesh) (sharding : Sharding) (dim lhs rhs : Nat) : Prop :=
  (lhs = 0 ∨ rhs = 0) ∧ (∀ axes ∈ sharding, axes.length = 1) ∧ numShards mesh (sharding.getD dim []) ≠ 1

instance (mesh : Mesh) (sharding : Sharding) (dim lhs rhs : Nat) :
    Decidable (Fires mesh sharding dim lhs rhs) :=
  inferInstanceAs (Decidable (_ ∧ _ ∧ _))

/-- The elements before the second copy of the operand. -/
def lowPad (n lhs : Nat) : Nat := if lhs ≠ 0 then lhs else n

/-- What the rewritten program makes of an operand. -/
def Computes [Zero α] (mesh : Mesh) (sharding : Sharding) (dim lhs rhs : Nat) (x y : Tensor α) : Prop :=
  let n := coord x.shape dim
  let shape := x.shape.set dim (n + lhs + rhs)
  let toPad := coord (toPads mesh sharding shape) dim
  ComputesAlong mesh sharding shape dim (lowPad n lhs) 0 (toPad + (lhs + rhs)) (lhs + rhs) toPad x x y

section

variable {mesh : Mesh} {sharding : Sharding} {shape : List Nat} {dim lhs rhs : Nat}

theorem exact_iff_holdsAlong [Zero α] (hok : ShardingOk mesh sharding) (hmesh : ∀ n ∈ mesh, 0 < n)
    (hdevices : mesh.prod < 2 ^ 31) (hrank : sharding.length = shape.length) (hd : dim < shape.length)
    (hlhs : lhs ≤ coord shape dim) (hrhs : rhs ≤ coord shape dim) (hfires : Fires mesh sharding dim lhs rhs)
    (hdecodes : Decodes mesh sharding (evenShape mesh sharding (shape.set dim (coord shape dim + lhs + rhs)))) :
    (∀ x : Tensor α, x.shape = shape →
      ∃ z, lowerExtend dim lhs rhs x = some z ∧ Exact (Computes mesh sharding dim lhs rhs x) z) ↔
    HoldsAlong mesh sharding (shape.set dim (coord shape dim + lhs + rhs)) dim
      (lowPad (coord shape dim) lhs) := by
  have hlen : (shape.set dim (coord shape dim + lhs + rhs)).length = shape.length :=
    length_set
  have hglobal : coord (evenShape mesh sharding _) dim = _ :=
    coord_evenShape (hrank.trans hlen.symm) (hlen.symm ▸ hd)
  rw [coord_set_self hd] at hglobal
  obtain ⟨hside, hone, hsharded⟩ := hfires
  constructor
  · intro hexact
    obtain ⟨z, -, ⟨y, hy⟩, -⟩ := hexact (splat shape 0) rfl
    exact holdsAlong_of_computes (hlen.symm ▸ hd) hy
  · intro hholds x hx
    subst hx
    obtain ⟨z, hz, halong⟩ := along_lowerExtend hd (Along.self hd) hlhs hrhs
    rw [← add_assoc, add_comm lhs] at halong
    refine ⟨z, hz, exact_along hok hmesh hdevices hone hrank hd hsharded hdecodes (Along.self hd)
      (Along.self hd) halong (by omega) (by omega) ?_ (fun idx k hk => ?_) (fun idx k hle hk => ?_)
      hholds⟩
    · rw [lowPad]
      split
      · omega
      · omega
    · rw [lowPad] at hk
      by_cases hzero : lhs = 0
      · subst hzero
        rw [if_neg (not_not.mpr rfl)] at hk
        refine ⟨Nat.zero_le k, hk, ?_⟩
        rw [appendLine, if_neg (Nat.not_lt_zero k), appendLine, Nat.sub_zero, if_pos hk]
      · rw [if_pos hzero] at hk
        refine ⟨Nat.zero_le k, by omega, ?_⟩
        rw [appendLine, if_pos hk]
        rfl
    · rw [lowPad] at hle
      by_cases hzero : lhs = 0
      · subst hzero
        rw [if_neg (not_not.mpr rfl)] at hle
        refine ⟨by omega, by omega, ?_⟩
        rw [appendLine, if_neg (Nat.not_lt_zero k), appendLine, Nat.sub_zero, if_neg (by omega)]
        congr 2
        omega
      · rw [if_pos hzero] at hle
        obtain rfl : rhs = 0 := hside.resolve_left hzero
        refine ⟨by omega, by omega, ?_⟩
        rw [appendLine, if_neg (by omega), appendLine, if_pos (by omega), add_zero]

end

end ExtendDUSLike

end EnzymeJax
