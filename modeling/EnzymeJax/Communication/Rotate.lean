import EnzymeJax.Communication.Manual
import EnzymeJax.Communication.ShiftPairs

/-!
# Rotating a sharded dimension

`RotateCommOptimize` rotates in the shorter direction: every device sends the part that leaves its
shard to the neighbour on that side, and joins what it gets to the part that stays.
-/

namespace EnzymeJax.RotateCommOptimize

open Tensor List Option

variable {α : Type*}

def leftToRight (n amount : Nat) : Bool := amount ≤ n / 2

/-- The amount in that direction. It is at most the `i32` attribute, so it does not wrap. -/
def shift (n amount : Nat) : Nat := if leftToRight n amount then amount else n - amount

def Fires (mesh : Mesh) (sharding : Sharding) (shape : List Nat) (dim amount : Nat) : Prop :=
  let n := coord shape dim
  let numDevices := numShards mesh (sharding.getD dim [])
  numDevices ≠ 1 ∧ shift n amount ≤ n / numDevices ∧ n % numDevices = 0

instance (mesh : Mesh) (sharding : Sharding) (shape : List Nat) (dim amount : Nat) :
    Decidable (Fires mesh sharding shape dim amount) :=
  inferInstanceAs (Decidable (_ ∧ _ ∧ _))

/-- The local program, for a dimension of extent `n` sharded along `axis`. -/
def body [Zero α] (mesh : Mesh) (dim axis n amount : Nat) (innerArg : Tensor (Nat → α)) :
    Option (Tensor (Nat → α)) := do
  let shape := innerArg.shape
  let size := coord shape dim
  let leftToRight := leftToRight n amount
  let amount := shift n amount
  let onlyComm := amount = n / coord mesh axis
  let commSlice ←
    if leftToRight then slice (sliceAlong dim 0 amount shape) innerArg
    else slice (sliceAlong dim (size - amount) size shape) innerArg
  let commResult ← collectivePermute mesh.prod
    (generateShiftPairs mesh axis leftToRight false false) commSlice
  if onlyComm then some commResult
  else if leftToRight then do
    let remSlice ← slice (sliceAlong dim amount size shape) innerArg
    concatenate dim [remSlice, commResult]
  else do
    let remSlice ← slice (sliceAlong dim 0 (size - amount) shape) innerArg
    concatenate dim [commResult, remSlice]

/-- What the rewritten program makes of an operand. -/
def Computes [Zero α] (mesh : Mesh) (sharding : Sharding) (dim axis amount : Nat)
    (x y : Tensor α) : Prop :=
  ∃ inputArg result, padOthers mesh sharding dim x = some inputArg ∧
    ManualComputation mesh sharding (body mesh dim axis (coord x.shape dim) amount) inputArg
      result ∧
    result.shape = inputArg.shape ∧ removePadding dim 0 x.shape result = some y

/-! ### The lines of the local program -/

section

variable {mesh : Mesh} {sharding : Sharding} {shape ls : List Nat} {dim axis size n amount : Nat}

section

variable {numDevices p k : Nat} (hn : n = numDevices * size) (hp : p < numDevices) (hamount : amount ≤ size)
  (hk : k < size)

include hn hp hamount hk

theorem position_right :
    (p * size + k + amount) % n =
      if k < size - amount then p * size + (amount + k)
      else (p + 1) % numDevices * size + (k - (size - amount)) := by
  have hnext : (p + 1) * size ≤ n := hn ▸ Nat.mul_le_mul_right _ hp
  rw [add_mul, one_mul] at hnext
  by_cases hstay : k < size - amount
  · rw [if_pos hstay, Nat.mod_eq_of_lt (by omega)]
    omega
  · rw [if_neg hstay, right_eq hp]
    by_cases hlast : p + 1 = numDevices
    · have hlast' : p * size + size = n := by rw [hn, ← hlast, add_mul, one_mul]
      rw [if_pos hlast, Nat.mod_eq_sub_mod (by omega), Nat.mod_eq_of_lt (by omega)]
      omega
    · have hmore : (p + 2) * size ≤ n := hn ▸ Nat.mul_le_mul_right _ (by omega)
      rw [add_mul] at hmore
      rw [if_neg hlast, Nat.mod_eq_of_lt (by omega), add_mul, one_mul]
      omega

theorem position_left :
    (p * size + k + (n - amount)) % n =
      if k < amount then (p + numDevices - 1) % numDevices * size + (size - amount + k)
      else p * size + (k - amount) := by
  have hnext : (p + 1) * size ≤ n := hn ▸ Nat.mul_le_mul_right _ hp
  rw [add_mul, one_mul] at hnext
  by_cases hsent : k < amount
  · rw [if_pos hsent, left_eq hp]
    by_cases hfirst : p = 0
    · have hlast : (numDevices - 1) * size + size = n := by
        rw [hn, ← Nat.add_one_mul, Nat.sub_add_cancel (by omega)]
      rw [if_pos hfirst, hfirst, zero_mul, Nat.mod_eq_of_lt (by omega)]
      omega
    · have hprev : (p - 1) * size + size = p * size := by
        rw [← Nat.add_one_mul, Nat.sub_add_cancel (by omega)]
      rw [if_neg hfirst, Nat.mod_eq_sub_mod (by omega), Nat.mod_eq_of_lt (by omega)]
      omega
  · rw [if_neg hsent, Nat.mod_eq_sub_mod (by omega), Nat.mod_eq_of_lt (by omega)]
    omega

end

variable [Zero α]

theorem body_eq {x : Tensor α} (h : ShardedAlong mesh sharding x.shape dim axis size)
    (hn : n = coord x.shape dim) (hamount : amount ≤ n) (hshift : shift n amount ≤ size) :
    ∃ locals f, body mesh dim axis n amount (shard mesh sharding x) = some locals ∧
      Along dim (localShape mesh sharding x.shape) size f locals ∧
      ∀ device < mesh.prod, ∀ idx ∈ indices ((localShape mesh sharding x.shape).set dim 1),
        ∀ k < size, f idx k device = x.get (lineAt mesh sharding x.shape dim device idx
          ((devicePos mesh axis device * size + k + amount) % n)) := by
  have halong := h.along_shard rfl (x := x)
  have hd := h.dim_lt_local
  have hcoord := halong.coord_shape hd
  have hsize : n / coord mesh axis = size := by rw [hn, h.size_eq]
  have hn : n = coord mesh axis * size := hn.trans h.extent
  have hinput : ∀ device < mesh.prod, ∀ (idx : List Nat) (c k : Nat), c < coord mesh axis →
      x.get (lineAt mesh sharding x.shape dim (moveAlong mesh axis c device) idx
        (devicePos mesh axis (moveAlong mesh axis c device) * size + k)) =
      x.get (lineAt mesh sharding x.shape dim device idx (c * size + k)) := by
    intro device hdev idx c k hc
    rw [h.lineAt_moveAlong hdev hc, devicePos_moveAlong hdev h.axis_lt hc]
  have hmod : ∀ p, p % coord mesh axis < coord mesh axis := fun p => Nat.mod_lt _ h.axis_pos
  by_cases hright : leftToRight n amount = true
  · have hshift' : shift n amount = amount := by rw [shift, if_pos hright]
    rw [hshift'] at hshift
    obtain ⟨commSlice, hcommSlice, hcomm⟩ := halong.slice_start amount amount hd rfl hshift
    obtain ⟨commResult, hcommResult, g, hres, hg⟩ := along_shift h.axis_lt true hcomm
    obtain ⟨remSlice, hremSlice, hrem⟩ :=
      halong.slice_nat amount size amount (size - amount) hd rfl (by omega) (by omega)
    obtain ⟨y, hy, hconcat⟩ := Along.concatenate_two hd hrem hres
    rw [Nat.sub_add_cancel hshift] at hconcat
    have hlines : ∀ device < mesh.prod, ∀ idx, ∀ k < size,
        appendLine (size - amount) (fun idx k device => x.get (lineAt mesh sharding x.shape dim device
          idx (devicePos mesh axis device * size + (amount + k)))) g idx k device =
        x.get (lineAt mesh sharding x.shape dim device idx ((devicePos mesh axis device * size + k + amount) % n)) := by
      intro device hdev idx k hk
      rw [position_right hn (devicePos_lt hdev h.axis_lt) hshift hk, appendLine]
      by_cases hstay : k < size - amount
      · rw [if_pos hstay, if_pos hstay]
      · rw [if_neg hstay, if_neg hstay, hg _ _ _ hdev, if_pos rfl, hinput _ hdev _ _ _ (hmod _)]
    by_cases honly : amount = size
    · refine ⟨commResult, g, ?_, ?_, fun device hdev idx _ k hk => ?_⟩
      · simp only [body, hcoord, hsize, hright, hshift', if_true, hcommSlice, hcommResult,
          bind_eq_bind, bind_some, if_pos honly]
      · rwa [honly] at hres
      · rw [← hlines device hdev idx k hk, honly, Nat.sub_self, appendLine,
          if_neg (Nat.not_lt_zero k), Nat.sub_zero]
    · refine ⟨y, _, ?_, hconcat, fun device hdev idx _ k hk => hlines device hdev idx k hk⟩
      simp only [body, hcoord, hsize, hright, hshift', if_true, hcommSlice, hcommResult,
        bind_eq_bind, bind_some, if_neg honly, hremSlice]
      exact hy
  · have hshift' : shift n amount = n - amount := by rw [shift, if_neg hright]
    rw [hshift'] at hshift
    rw [Bool.not_eq_true] at hright
    obtain ⟨commSlice, hcommSlice, hcomm⟩ := halong.slice_nat (size - (n - amount : Nat)) size
      (size - (n - amount)) (n - amount) hd (by omega) (by omega) (by omega)
    obtain ⟨commResult, hcommResult, g, hres, hg⟩ := along_shift h.axis_lt false hcomm
    obtain ⟨remSlice, hremSlice, hrem⟩ :=
      halong.slice_start (size - (n - amount : Nat)) (size - (n - amount)) hd (by omega) (by omega)
    obtain ⟨y, hy, hconcat⟩ := Along.concatenate_two hd hres hrem
    rw [Nat.add_sub_cancel' hshift] at hconcat
    have hlines : ∀ device < mesh.prod, ∀ idx, ∀ k < size,
        appendLine (n - amount) g (fun idx k device => x.get (lineAt mesh sharding x.shape dim device
          idx (devicePos mesh axis device * size + k))) idx k device =
        x.get (lineAt mesh sharding x.shape dim device idx ((devicePos mesh axis device * size + k + amount) % n)) := by
      intro device hdev idx k hk
      have hposition := position_left hn (devicePos_lt hdev h.axis_lt) hshift hk
      rw [Nat.sub_sub_self hamount] at hposition
      rw [hposition, appendLine]
      by_cases hleave : k < n - amount
      · rw [if_pos hleave, if_pos hleave, hg _ _ _ hdev, if_neg Bool.false_ne_true, hinput _ hdev _ _ _ (hmod _)]
      · rw [if_neg hleave, if_neg hleave]
    by_cases honly : n - amount = size
    · refine ⟨commResult, g, ?_, ?_, fun device hdev idx _ k hk => ?_⟩
      · simp only [body, hcoord, hsize, hright, hshift', Bool.false_eq_true, if_false, hcommSlice,
          hcommResult, bind_eq_bind, bind_some, if_pos honly]
      · rwa [honly] at hres
      · rw [← hlines device hdev idx k hk, honly, appendLine, if_pos hk]
    · refine ⟨y, _, ?_, hconcat, fun device hdev idx _ k hk => hlines device hdev idx k hk⟩
      simp only [body, hcoord, hsize, hright, hshift', Bool.false_eq_true, if_false, hcommSlice,
        hcommResult, bind_eq_bind, bind_some, if_neg honly, hremSlice]
      exact hy

/-! ### Every rotate -/

omit [Zero α] in
theorem two_le_of_fires (hmesh : ∀ n ∈ mesh, 0 < n) (hok : ShardingOk mesh sharding)
    (haxis : sharding[dim]? = some [axis]) (hfires : Fires mesh sharding shape dim amount) :
    2 ≤ coord mesh axis ∧ shift (coord shape dim) amount ≤ coord shape dim / coord mesh axis ∧
      coord mesh axis ∣ coord shape dim := by
  have hnum : numShards mesh (sharding.getD dim []) = coord mesh axis := by
    rw [getD_eq_getElem?_getD, haxis, getD_some, numShards_one]
  obtain ⟨hne, hshift, hmod⟩ := hfires
  rw [hnum] at hne hshift hmod
  have hlt : axis < mesh.length :=
    hok.2 axis (mem_flatten.mpr ⟨_, mem_of_getElem? haxis, mem_cons_self⟩)
  have hpos : 0 < coord mesh axis := by
    rw [coord, getD_eq_getElem _ _ hlt]
    exact hmesh _ (getElem_mem hlt)
  exact ⟨by omega, hshift, Nat.dvd_of_mod_eq_zero hmod⟩

end

end EnzymeJax.RotateCommOptimize
