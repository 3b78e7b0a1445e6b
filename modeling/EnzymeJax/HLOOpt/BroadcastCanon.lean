import EnzymeJax.HLOOpt.TransposeSlices
import EnzymeJax.Library.Reads

/-!
# Broadcasts and transposes

`BroadcastInDimOpCanon` replaces a `broadcast_in_dim` by its operand, a constant, a reshape, a transpose or a
broadcast of what its operand broadcasts, or else moves its unit dimensions. The other two patterns merge a
broadcast with a transpose. All shapes are static.
-/

namespace EnzymeJax.BroadcastCanon

open Tensor TransposeSlices
open List hiding transpose
open Option hiding mem_toFinset

/-- A value, by the operations that define it. A constant here is a splat. -/
inductive Expr (α : Type*)
  | value (x : Tensor α)
  | constant (type : List Nat) (splatValue : α)
  | reshape (type : List Nat) (operand : Expr α)
  | transpose (type : List Nat) (operand : Expr α) (permutation : List Nat)
  | broadcastInDim (type : List Nat) (operand : Expr α) (broadcastDimensions : List Nat)

variable {α : Type*}

namespace Expr

def type : Expr α → List Nat
  | value x => x.shape
  | constant type _ | reshape type _ | transpose type _ _ | broadcastInDim type _ _ => type

/-- The value, if every operation is well formed: its operand fits, and its type is the one its operand implies. -/
def eval : Expr α → Option (Tensor α)
  | value x => some x
  | constant type splatValue => some (splat type splatValue)
  | reshape type operand => operand.eval.bind (Tensor.reshape type)
  | transpose type operand permutation =>
    (operand.eval.bind (Tensor.transpose permutation)).filter fun t => t.shape = type
  | broadcastInDim type operand dims => operand.eval.bind fun x => x.broadcastInDim dims type

def splatValue? : Expr α → Option α
  | constant _ splatValue => some splatValue
  | _ => none

def definingBroadcast? : Expr α → Option (Expr α × List Nat)
  | broadcastInDim _ operand dims => some (operand, dims)
  | _ => none

end Expr

/-! ### The patterns -/

def isIotaRange (dims : List Nat) : Bool := dims.zipIdx.all fun it => it.2 == it.1

def newidx (type dims : List Nat) : Option Nat :=
  (List.range type.length).find? fun j => coord type j = 1 ∧ j ∉ dims

/-- One turn of the loop over the dimensions of the operand: `changed` and the list as it is by now. -/
def retargetStep (operandTy type : List Nat) (state : Bool × List Nat) (i : Nat) : Bool × List Nat :=
  if coord operandTy i ≠ 1 then state
  else if coord type (coord state.2 i) = 1 then state
  else (newidx type state.2).elim state fun j => (true, state.2.set i j)

def retarget (operandTy type dims : List Nat) : Bool × List Nat :=
  (List.range dims.length).foldl (retargetStep operandTy type) (false, dims)

def BroadcastInDimOpCanon : Expr α → Option (Expr α)
  | .broadcastInDim type operand dims =>
    if type = operand.type ∧ isIotaRange dims then some operand
    else match operand.splatValue? with
    | some cst => some (.constant type cst)
    | none =>
      if type.prod = operand.type.prod ∧ isIotaRange dims then some (.reshape type operand)
      else if type.prod = operand.type.prod ∧ type.length = operand.type.length then
        some (.transpose type operand (getInversePermutation dims))
      else match operand.definingBroadcast? with
      | some (inner, innerDims) => some (.broadcastInDim type inner (innerDims.map (coord dims)))
      | none =>
        let (changed, newDims) := retarget operand.type type dims
        if changed then some (.broadcastInDim type operand newDims) else none
  | _ => none

/-- Where each dimension of the transposed operand goes. The source starts from `-1`, which is no dimension; an entry
that keeps it leaves too few dimensions. -/
def newBroadcastDims (rank : Nat) (permutation broadcastDims : List Nat) : List Nat :=
  (broadcastDims.zipIdx.foldl (fun new en => new.set (coord permutation en.2) (some en.1))
    (List.replicate rank none)).reduceOption

def TransposeBroadcastInDimToBroadcastInDim : Expr α → Option (Expr α)
  | .broadcastInDim type (.transpose _ operand permutation) broadcastDims =>
    some (.broadcastInDim type operand (newBroadcastDims operand.type.length permutation broadcastDims))
  | _ => none

def BroadcastInDimTransposeToBroadcastInDim : Expr α → Option (Expr α)
  | .transpose type (.broadcastInDim _ operand broadcastDims) permutation =>
    some (.broadcastInDim type operand (broadcastDims.map (coord (getInversePermutation permutation))))
  | _ => none

inductive Pattern
  | broadcastInDimOpCanon
  | transposeBroadcastInDim
  | broadcastInDimTranspose

def Pattern.rewrite : Pattern → Expr α → Option (Expr α)
  | broadcastInDimOpCanon => BroadcastInDimOpCanon
  | transposeBroadcastInDim => TransposeBroadcastInDimToBroadcastInDim
  | broadcastInDimTranspose => BroadcastInDimTransposeToBroadcastInDim

/-! ### Values of expressions -/

section

variable {e operand : Expr α} {type dims permutation : List Nat} {x y : Tensor α}

theorem shape_eval (h : e.eval = some x) : x.shape = e.type := by
  cases e with
  | value w | constant type a => exact congrArg Tensor.shape (some.inj h).symm
  | reshape type operand =>
    obtain ⟨w, -, hx⟩ := bind_eq_some_iff.mp h
    exact congrArg Tensor.shape (some.inj (ite_none_right_eq_some.mp hx).2).symm
  | transpose type operand permutation => exact of_decide_eq_true (filter_eq_some_iff.mp h).2
  | broadcastInDim type operand dims =>
    obtain ⟨w, -, hx⟩ := bind_eq_some_iff.mp h
    exact (of_broadcastInDim hx).2

theorem eval_broadcastInDim (h : (Expr.broadcastInDim type operand dims).eval = some y) :
    ∃ x, operand.eval = some x ∧ x.shape = operand.type ∧ x.broadcastInDim dims type = some y := by
  obtain ⟨x, hx, hy⟩ := bind_eq_some_iff.mp h
  exact ⟨x, hx, shape_eval hx, hy⟩

theorem eval_transpose (h : (Expr.transpose type operand permutation).eval = some y) :
    ∃ x, operand.eval = some x ∧ x.shape = operand.type ∧ transpose permutation x = some y ∧ y.shape = type := by
  obtain ⟨h, hshape⟩ := filter_eq_some_iff.mp h
  obtain ⟨x, hx, hy⟩ := bind_eq_some_iff.mp h
  exact ⟨x, hx, shape_eval hx, hy, of_decide_eq_true hshape⟩

theorem eval_of_splatValue {a : α} (h : e.splatValue? = some a) (hx : e.eval = some x) : x = splat e.type a := by
  cases e with
  | constant type b =>
    cases h
    exact (some.inj hx).symm
  | _ => cases h

theorem eval_of_definingBroadcast {inner : Expr α} (h : e.definingBroadcast? = some (inner, dims))
    (hx : e.eval = some x) : ∃ w, inner.eval = some w ∧ w.broadcastInDim dims e.type = some x := by
  cases e with
  | broadcastInDim type operand dims' =>
    cases h
    exact bind_eq_some_iff.mp hx
  | _ => cases h

end

/-! ### Broadcasts that expand nothing -/

section

variable {operand dims shape : List Nat}

theorem prod_eq_prod_coord (shape : List Nat) :
    shape.prod = ∏ d ∈ Finset.range shape.length, coord shape d := by
  rw [← toFinset_range, prod_toFinset _ nodup_range, map_coord_range rfl]

theorem extents_of_prod_eq (hok : BroadcastOk operand dims shape) (hpos : ∀ n ∈ shape, 0 < n)
    (hprod : shape.prod = operand.prod) :
    (∀ k < dims.length, coord operand k = coord shape (coord dims k)) ∧
      ∀ d < shape.length, d ∉ dims → coord shape d = 1 := by
  obtain ⟨hlen, hnodup, hdims⟩ := broadcastOk_iff.mp hok
  have hshape : ∀ d < shape.length, 0 < coord shape d := fun d hd => by
    rw [coord_eq_getElem hd]
    exact hpos _ (getElem_mem hd)
  -- The extent that the operand has in dimension `d` of the result.
  let f : Nat → Nat := fun d => if d ∈ dims.toFinset then coord operand (dims.idxOf d) else 1
  have hf : ∏ d ∈ Finset.range shape.length, f d = operand.prod := by
    have hsub : dims.toFinset ⊆ Finset.range shape.length := fun d hd =>
      Finset.mem_range.mpr (hok.2.2.1 d (mem_toFinset.mp hd))
    rw [Finset.prod_ite_mem, Finset.inter_eq_right.mpr hsub, prod_toFinset _ hnodup]
    refine congrArg prod (eq_of_coord (by rw [length_map, hlen]) fun k hk => ?_)
    rw [length_map] at hk
    rw [coord_map _ _ hk, hnodup.idxOf_getElem]
  have hle : ∀ d ∈ Finset.range shape.length, 0 < f d ∧ f d ≤ coord shape d := by
    intro d hd
    have hd := hshape d (Finset.mem_range.mp hd)
    by_cases hmem : d ∈ dims
    · have hk := idxOf_lt_length_of_mem hmem
      have hextent := (hdims _ hk).2
      rw [coord_eq_getElem hk, getElem_idxOf hk] at hextent
      rw [show f d = coord operand (dims.idxOf d) from if_pos (mem_toFinset.mpr hmem)]
      omega
    · rw [show f d = 1 from if_neg (mt mem_toFinset.mp hmem)]
      exact ⟨one_pos, hd⟩
  have heq : ∀ d < shape.length, f d = coord shape d := by
    intro d hd
    by_contra hne
    have hlt := Finset.prod_lt_prod (fun d hd => (hle d hd).1) (fun d hd => (hle d hd).2)
      ⟨d, Finset.mem_range.mpr hd, lt_of_le_of_ne (hle d (Finset.mem_range.mpr hd)).2 hne⟩
    rw [hf, ← prod_eq_prod_coord, hprod] at hlt
    exact lt_irrefl _ hlt
  refine ⟨fun k hk => ?_, fun d hd hmem => ?_⟩
  · have hat := heq _ (hdims k hk).1
    have hmem : coord dims k ∈ dims := coord_eq_getElem hk ▸ getElem_mem hk
    rw [← hat, show f (coord dims k) = _ from if_pos (mem_toFinset.mpr hmem), coord_eq_getElem hk, hnodup.idxOf_getElem]
  · rw [← heq d hd, show f d = 1 from if_neg (mt mem_toFinset.mp hmem)]

end

theorem coord_of_isIotaRange {dims : List Nat} (h : isIotaRange dims) {k : Nat} (hk : k < dims.length) :
    coord dims k = k := by
  have hat := all_eq_true.mp h (dims[k], k) (mem_zipIdx_iff_getElem?.mpr (getElem?_eq_getElem hk))
  rw [coord_eq_getElem hk]
  exact (beq_iff_eq.mp hat).symm

theorem map_range_add {f : Nat → Nat} {r n a : Nat} (h : ∀ d, r ≤ d → d < r + n → f d = a) :
    (range (r + n)).map f = (range r).map f ++ replicate n a := by
  rw [range_add, map_append, List.map_map]
  refine congrArg _ (eq_replicate_iff.mpr ⟨by rw [length_map, length_range], fun b hb => ?_⟩)
  obtain ⟨d, hd, rfl⟩ := mem_map.mp hb
  exact h _ (Nat.le_add_right r d) (Nat.add_lt_add_left (mem_range.mp hd) r)

section

variable {type dims : List Nat} {x y : Tensor α} (h : broadcastInDim x dims type = some y)

include h

theorem read_of_extents (hextents : ∀ k < dims.length, coord x.shape k = coord type (coord dims k))
    {c : Nat → Nat} (hc : Within type c) : y.read c = x.read fun k => c (coord dims k) := by
  obtain ⟨hlen, -, hdims⟩ := broadcastOk_iff.mp (of_broadcastInDim h).1
  rw [read_broadcastInDim h]
  refine read_congr x fun k hk => ?_
  rw [← hlen] at hk
  split
  · rename_i hone
    have hlt := hc _ (hdims k hk).1
    rw [← hextents k hk, hone] at hlt
    exact (Nat.lt_one_iff.mp hlt).symm
  · rfl

theorem same_of_isIotaRange (htype : type = x.shape) (hiota : isIotaRange dims) : Same x y := by
  obtain ⟨hok, hshape⟩ := of_broadcastInDim h
  subst htype
  refine same_of_read hshape.symm fun c hc => ?_
  rw [read_of_extents h (fun k hk => by rw [coord_of_isIotaRange hiota hk]) hc]
  exact read_congr x fun k hk => by rw [coord_of_isIotaRange hiota (hok.1.symm ▸ hk)]

variable (hpos : ∀ n ∈ type, 0 < n) (hprod : type.prod = x.shape.prod)

include hpos hprod

theorem exists_reshape (hiota : isIotaRange dims) : ∃ z, reshape type x = some z ∧ Same z y := by
  obtain ⟨hok, hshape⟩ := of_broadcastInDim h
  obtain ⟨hextents, hones⟩ := extents_of_prod_eq hok hpos hprod
  have hlen := hok.1
  have hdims : ∀ k < x.shape.length, coord dims k = k := fun k hk =>
    coord_of_isIotaRange hiota (hlen.symm ▸ hk)
  have hrank : x.shape.length ≤ type.length := by
    by_contra hlt
    have hk := ((broadcastOk_iff.mp hok).2.2 type.length (by omega)).1
    rw [hdims _ (by omega)] at hk
    exact lt_irrefl _ hk
  obtain ⟨n, hn⟩ := Nat.exists_eq_add_of_le hrank
  have hnew : ∀ d, x.shape.length ≤ d → d < x.shape.length + n → coord type d = 1 := by
    intro d hd hd'
    refine hones d (hn ▸ hd') fun hmem => ?_
    obtain ⟨k, hk, rfl⟩ := getElem_of_mem hmem
    rw [← coord_eq_getElem hk, hdims k (hlen ▸ hk)] at hd
    omega
  have hold : ∀ d < x.shape.length, coord type d = coord x.shape d := fun d hd => by
    rw [hextents d (hlen.symm ▸ hd), hdims d hd]
  have htype : type = x.shape ++ replicate n 1 := by
    rw [← map_coord_range (rfl : type.length = type.length), hn, map_range_add hnew,
      map_congr_left fun d hd => hold d (mem_range.mp hd), map_coord_range rfl]
  have hz : reshape type x = some _ := if_pos hprod
  refine ⟨_, hz, same_of_read hshape.symm fun c hc => ?_⟩
  have hc : Within type c := hc
  have hcx : Within x.shape c := fun d hd => hold d hd ▸ hc d (by omega)
  have hidx : (range type.length).map c = (range x.shape.length).map c ++ replicate n 0 := by
    rw [hn]
    refine map_range_add fun d hd hd' => ?_
    have hlt := hc d (hn ▸ hd')
    rw [hnew d hd hd'] at hlt
    exact Nat.lt_one_iff.mp hlt
  rw [read_of_extents h hextents hc, read_congr x fun k hk => congrArg c (hdims k hk)]
  refine reshape_get_of_ravel_eq hz hcx.mem_indices ?_
  dsimp only
  rw [hidx]
  conv_lhs => rw [htype]
  exact ravel_append_ones hcx.mem_indices n

theorem exists_transpose (hrank : type.length = x.shape.length) :
    ∃ z, transpose (getInversePermutation dims) x = some z ∧ z.shape = type ∧ Same z y := by
  obtain ⟨hok, hshape⟩ := of_broadcastInDim h
  obtain ⟨hextents, -⟩ := extents_of_prod_eq hok hpos hprod
  obtain ⟨hlen, hnodup, hlt, -⟩ := id hok
  have hperm : dims.Perm (range dims.length) := by
    refine (hnodup.subperm fun d hd => mem_range.mpr ?_).perm_of_length_le (by rw [length_range])
    rw [hlen, ← hrank]
    exact hlt d hd
  have hinverse := getInversePermutation_perm hperm
  obtain ⟨hinvlength, hget⟩ := getInversePermutation_spec hperm
  obtain ⟨z, hz⟩ : ∃ z, transpose (getInversePermutation dims) x = some z := ⟨_, if_pos (hlen ▸ hinverse)⟩
  obtain ⟨-, hzrank, hzshape⟩ := shape_transpose hz
  have htype : z.shape = type := by
    refine eq_of_coord (hzrank.trans hrank.symm) fun d hd => ?_
    rw [hzrank] at hd
    have hd' : d < dims.length := hlen.symm ▸ hd
    rw [(hzshape d hd).2.2, hget d hd', hextents _ (idxOf_lt hperm hd'), coord_idxOf hperm hd']
  refine ⟨z, hz, htype, same_of_read (htype.trans hshape.symm) fun c hc => ?_⟩
  rw [htype] at hc
  rw [read_transpose hz, read_of_extents h hextents hc]
  refine read_congr x fun k hk => congrArg c ?_
  rw [← hlen] at hk
  have hk' := coord_lt_of_perm hperm hk
  conv_lhs => rw [← idxOf_coord hperm hk, ← hget _ hk']
  exact idxOf_coord hinverse hk'

end

/-! ### Broadcasts with other dimensions -/

section

variable {type dims permutation : List Nat} {w x y : Tensor α}

variable {innerType : List Nat}

theorem exists_map_dims (type : List Nat) (h : broadcastInDim w dims innerType = some x) {f : Nat → Nat}
    (hinj : ∀ a < innerType.length, ∀ b < innerType.length, f a = f b → a = b)
    (hf : ∀ a < innerType.length, f a < type.length ∧ (coord innerType a = 1 ∨ coord innerType a = coord type (f a))) :
    ∃ z, broadcastInDim w (dims.map f) type = some z ∧ z.shape = type ∧
      ∀ c, z.read c = w.read fun i => if coord w.shape i = 1 then 0 else c (f (coord dims i)) := by
  obtain ⟨hlen, hnodup, hdims⟩ := broadcastOk_iff.mp (of_broadcastInDim h).1
  have hlt : ∀ d ∈ dims, d < innerType.length := (of_broadcastInDim h).1.2.2.1
  have hok : BroadcastOk w.shape (dims.map f) type := by
    refine broadcastOk_iff.mpr ⟨by rw [length_map, hlen],
      hnodup.map_on fun a ha b hb => hinj a (hlt a ha) b (hlt b hb), fun k hk => ?_⟩
    rw [length_map] at hk
    obtain ⟨hk', hextent⟩ := hdims k hk
    obtain ⟨hfk, hinner⟩ := hf _ hk'
    rw [coord_map _ _ hk, ← coord_eq_getElem hk]
    refine ⟨hfk, ?_⟩
    obtain hone | heq := hextent
    · exact .inl hone
    · rwa [heq]
  obtain ⟨z, hz⟩ : ∃ z, broadcastInDim w (dims.map f) type = some z := ⟨_, if_pos hok⟩
  refine ⟨z, hz, (of_broadcastInDim hz).2, fun c => ?_⟩
  rw [read_broadcastInDim hz]
  refine read_congr w fun i hi => ?_
  have hi' : i < dims.length := hlen.symm ▸ hi
  rw [coord_map _ _ hi', ← coord_eq_getElem hi']

theorem exists_nested {innerDims : List Nat} (hx : broadcastInDim w innerDims innerType = some x)
    (h : broadcastInDim x dims type = some y) :
    ∃ z, broadcastInDim w (innerDims.map (coord dims)) type = some z ∧ Same z y := by
  obtain ⟨hok, hshape⟩ := of_broadcastInDim h
  obtain ⟨hokx, hxshape⟩ := of_broadcastInDim hx
  rw [hxshape] at hok
  obtain ⟨hlen, hnodup, hdims⟩ := broadcastOk_iff.mp hok
  have hinj : ∀ a < innerType.length, ∀ b < innerType.length, coord dims a = coord dims b → a = b := by
    intro a ha b hb heq
    rw [← hlen] at ha hb
    rw [coord_eq_getElem ha, coord_eq_getElem hb] at heq
    exact hnodup.getElem_inj_iff.mp heq
  obtain ⟨z, hz, hzshape, hread⟩ := exists_map_dims type hx hinj fun a ha => hdims a (hlen ▸ ha)
  refine ⟨z, hz, same_of_read (hzshape.trans hshape.symm) fun c _ => ?_⟩
  rw [hread, read_broadcastInDim h, read_broadcastInDim hx, hxshape]
  refine read_congr w fun i hi => ?_
  have hextent := ((broadcastOk_iff.mp hokx).2.2 i (hokx.1.symm ▸ hi)).2
  by_cases hone : coord w.shape i = 1
  · rw [if_pos hone, if_pos hone]
  · rw [if_neg hone, if_neg hone, if_neg (hextent.resolve_left hone ▸ hone)]

theorem exists_broadcastInDimTranspose (hx : broadcastInDim w dims innerType = some x)
    (h : transpose permutation x = some y) :
    ∃ z, broadcastInDim w (dims.map (coord (getInversePermutation permutation))) y.shape = some z ∧ Same z y := by
  obtain ⟨hokx, rfl⟩ := of_broadcastInDim hx
  obtain ⟨hperm, hrank, hshape⟩ := shape_transpose h
  have hplength : permutation.length = x.shape.length := by rw [hperm.length_eq, length_range]
  obtain ⟨-, hget⟩ := getInversePermutation_spec (hplength.symm ▸ hperm)
  rw [hplength] at hget
  have hinj : ∀ a < x.shape.length, ∀ b < x.shape.length, coord (getInversePermutation permutation) a =
      coord (getInversePermutation permutation) b → a = b := by
    intro a ha b hb heq
    rw [hget a ha, hget b hb] at heq
    rw [← coord_idxOf hperm ha, heq, coord_idxOf hperm hb]
  obtain ⟨z, hz, hzshape, hread⟩ := exists_map_dims y.shape hx hinj fun a ha => by
    have hlt := idxOf_lt hperm ha
    rw [hget a ha, (hshape _ hlt).2.2, coord_idxOf hperm ha]
    exact ⟨hrank.symm ▸ hlt, .inr rfl⟩
  refine ⟨z, hz, same_of_read hzshape fun c _ => ?_⟩
  rw [hread, read_transpose h, read_broadcastInDim hx]
  refine read_congr w fun i hi => ?_
  have hlt := ((broadcastOk_iff.mp hokx).2.2 i (hokx.1.symm ▸ hi)).1
  rw [hget _ hlt, Function.comp_apply]

theorem newBroadcastDims_eq {n : Nat} (hperm : permutation.Perm (range n)) (hlen : dims.length = n) :
    newBroadcastDims n permutation dims = (range n).map fun e => coord dims (permutation.idxOf e) := by
  have hplength : permutation.length = n := by rw [hperm.length_eq, length_range]
  have hkeys : (dims.zipIdx.map fun en => (coord permutation en.2, some en.1)).map Prod.fst = permutation := by
    calc (dims.zipIdx.map fun en => (coord permutation en.2, some en.1)).map Prod.fst
        = (dims.zipIdx.map Prod.snd).map (coord permutation) := by rw [List.map_map, List.map_map]; rfl
      _ = permutation := by rw [zipIdx_map_snd, ← range_eq_range', hlen, map_coord_range hplength]
  obtain ⟨hfold, hget, -⟩ := foldl_set_spec
    (hkeys.symm ▸ hperm.nodup_iff.mpr nodup_range) (replicate n none) fun en hen => by
      have hmem : en.1 ∈ permutation := hkeys ▸ mem_map_of_mem hen
      rw [length_replicate]
      exact mem_range.mp (hperm.mem_iff.mp hmem)
  rw [foldl_map] at hfold hget
  have hnew : dims.zipIdx.foldl (fun new en => new.set (coord permutation en.2) (some en.1)) (replicate n none) =
      (range n).map fun e => some (coord dims (permutation.idxOf e)) := by
    refine ext_getElem (by rw [hfold, length_replicate, length_map, length_range]) fun e he he' => ?_
    have he : e < n := by simpa using he'
    have hk : permutation.idxOf e < dims.length := hlen.symm ▸ idxOf_lt hperm he
    have hmem : (dims[permutation.idxOf e], permutation.idxOf e) ∈ dims.zipIdx :=
      mem_zipIdx_iff_getElem?.mpr (getElem?_eq_getElem hk)
    have hen := hget _ (mem_map_of_mem hmem)
    dsimp only at hen
    rw [coord_idxOf hperm he] at hen
    rw [getElem_map, getElem_range, coord_eq_getElem hk]
    exact (List.getElem?_eq_some_iff.mp hen).2
  rw [newBroadcastDims, hnew]
  change (_ : List (Option Nat)).filterMap id = _
  rw [filterMap_map]
  exact congrFun (filterMap_eq_map (f := fun e => coord dims (permutation.idxOf e))) _

theorem exists_transposeBroadcastInDim (hx : transpose permutation w = some x)
    (h : broadcastInDim x dims type = some y) :
    ∃ z, broadcastInDim w (newBroadcastDims w.shape.length permutation dims) type = some z ∧ Same z y := by
  obtain ⟨hok, hyshape⟩ := of_broadcastInDim h
  obtain ⟨hlen, hnodup, hdims⟩ := broadcastOk_iff.mp hok
  obtain ⟨hperm, hrank, hshape⟩ := shape_transpose hx
  rw [hrank] at hlen
  rw [newBroadcastDims_eq hperm hlen]
  have hnew : ∀ e < w.shape.length, coord ((range w.shape.length).map fun e =>
      coord dims (permutation.idxOf e)) e = coord dims (permutation.idxOf e) := fun e he => coord_map_range _ he
  have hnewok : BroadcastOk w.shape
      ((range w.shape.length).map fun e => coord dims (permutation.idxOf e)) type := by
    refine broadcastOk_iff.mpr ⟨by rw [length_map, length_range], nodup_range.map_on fun a ha b hb heq => ?_,
      fun k hk => ?_⟩
    · have ha := mem_range.mp ha
      have hb := mem_range.mp hb
      have ha' := hlen.symm ▸ idxOf_lt hperm ha
      have hb' := hlen.symm ▸ idxOf_lt hperm hb
      rw [coord_eq_getElem ha', coord_eq_getElem hb'] at heq
      rw [← coord_idxOf hperm ha, hnodup.getElem_inj_iff.mp heq, coord_idxOf hperm hb]
    · rw [length_map, length_range] at hk
      have hlt := idxOf_lt hperm hk
      have hextent := hdims _ (hlen.symm ▸ hlt)
      rwa [(hshape _ hlt).2.2, coord_idxOf hperm hk, ← hnew k hk] at hextent
  obtain ⟨z, hz⟩ : ∃ z, broadcastInDim w ((range w.shape.length).map fun e =>
    coord dims (permutation.idxOf e)) type = some z := ⟨_, if_pos hnewok⟩
  refine ⟨z, hz, same_of_read ((of_broadcastInDim hz).2.trans hyshape.symm) fun c _ => ?_⟩
  rw [read_broadcastInDim hz, read_broadcastInDim h, read_transpose hx]
  refine read_congr w fun k hk => ?_
  rw [Function.comp_apply, (hshape _ (idxOf_lt hperm hk)).2.2, coord_idxOf hperm hk, hnew k hk]

end

/-! ### Unit dimensions sent elsewhere -/

section

variable {operandTy type dims : List Nat}

/-- The list as it is by now: it fits, and only unit dimensions of the operand have moved. -/
def Retargeted (operandTy type dims newDims : List Nat) : Prop :=
  BroadcastOk operandTy newDims type ∧ ∀ k, coord operandTy k ≠ 1 → coord newDims k = coord dims k

theorem newidx_spec {j : Nat} (h : newidx type dims = some j) : j < type.length ∧ j ∉ dims := by
  rw [newidx] at h
  have hfound := find?_some h
  exact ⟨mem_range.mp (mem_of_find?_eq_some h), (of_decide_eq_true hfound).2⟩

theorem Retargeted.step {state : Bool × List Nat} (h : Retargeted operandTy type dims state.2) (i : Nat) :
    Retargeted operandTy type dims (retargetStep operandTy type state i).2 := by
  rw [retargetStep]
  split
  · exact h
  · rename_i hone
    split
    · exact h
    · cases hj : newidx type state.2 with
      | none => exact h
      | some j =>
        obtain ⟨hlen, hnodup, hdims⟩ := broadcastOk_iff.mp h.1
        obtain ⟨hlt, hnew⟩ := newidx_spec hj
        refine ⟨broadcastOk_iff.mpr ⟨by rw [elim_some, length_set, hlen], hnodup.set hnew, fun k hk => ?_⟩,
          fun k hk => ?_⟩
        · by_cases hki : k = i
          · subst hki
            rw [elim_some, coord_set_self (by simpa using hk)]
            exact ⟨hlt, .inl (not_not.mp hone)⟩
          · rw [elim_some, coord_set_of_ne hki]
            exact hdims k (by simpa using hk)
        · have hki : k ≠ i := fun heq => hone (heq ▸ hk)
          rw [elim_some, coord_set_of_ne hki]
          exact h.2 k hk

theorem retargeted_retarget (hok : BroadcastOk operandTy dims type) :
    Retargeted operandTy type dims (retarget operandTy type dims).2 := by
  suffices h : ∀ (l : List Nat) (state : Bool × List Nat), Retargeted operandTy type dims state.2 →
      Retargeted operandTy type dims (l.foldl (retargetStep operandTy type) state).2 from
    h _ _ ⟨hok, fun _ _ => rfl⟩
  intro l
  induction l with
  | nil => exact fun _ h => h
  | cons i l ih => exact fun state h => ih _ (h.step i)

theorem exists_retarget {x y : Tensor α} (h : broadcastInDim x dims type = some y) :
    ∃ z, broadcastInDim x (retarget x.shape type dims).2 type = some z ∧ Same z y := by
  obtain ⟨hok, hshape⟩ := of_broadcastInDim h
  obtain ⟨hnewok, hkept⟩ := retargeted_retarget hok
  obtain ⟨z, hz⟩ : ∃ z, broadcastInDim x (retarget x.shape type dims).2 type = some z := ⟨_, if_pos hnewok⟩
  refine ⟨z, hz, same_of_read ((of_broadcastInDim hz).2.trans hshape.symm) fun c _ => ?_⟩
  rw [read_broadcastInDim hz, read_broadcastInDim h]
  refine read_congr x fun k _ => ?_
  split
  · rfl
  · rename_i hne
    rw [hkept k hne]

end

/-! ### The patterns are exact -/

section

variable {e e' : Expr α} {y : Tensor α}

theorem broadcastInDimOpCanon_exact (hpos : ∀ n ∈ e.type, 0 < n) (hy : e.eval = some y)
    (he : BroadcastInDimOpCanon e = some e') : ∃ z, e'.eval = some z ∧ Same z y := by
  cases e with
  | broadcastInDim type operand dims =>
    obtain ⟨x, hx, hshape, h⟩ := eval_broadcastInDim hy
    rw [BroadcastInDimOpCanon] at he
    rw [← hshape] at he
    split at he
    · rename_i hnoop
      cases he
      exact ⟨x, hx, same_of_isIotaRange h hnoop.1 hnoop.2⟩
    · split at he
      · rename_i cst hcst
        cases he
        refine ⟨_, rfl, same_of_read (of_broadcastInDim h).2.symm fun c _ => ?_⟩
        rw [read_broadcastInDim h, eval_of_splatValue hcst hx]
        rfl
      · split at he
        · rename_i hreshape
          cases he
          obtain ⟨z, hz, hsame⟩ := exists_reshape h hpos hreshape.1 hreshape.2
          exact ⟨z, bind_eq_some_iff.mpr ⟨x, hx, hz⟩, hsame⟩
        · split at he
          · rename_i htranspose
            cases he
            obtain ⟨z, hz, hzshape, hsame⟩ := exists_transpose h hpos htranspose.1 htranspose.2
            exact ⟨z, filter_eq_some_iff.mpr ⟨bind_eq_some_iff.mpr ⟨x, hx, hz⟩, decide_eq_true hzshape⟩, hsame⟩
          · split at he
            · rename_i inner innerDims hinner
              cases he
              obtain ⟨w, hw, hinnerx⟩ := eval_of_definingBroadcast hinner hx
              obtain ⟨z, hz, hsame⟩ := exists_nested hinnerx h
              exact ⟨z, bind_eq_some_iff.mpr ⟨w, hw, hz⟩, hsame⟩
            · obtain ⟨-, he⟩ := ite_none_right_eq_some.mp he
              cases he
              obtain ⟨z, hz, hsame⟩ := exists_retarget h
              exact ⟨z, bind_eq_some_iff.mpr ⟨x, hx, hz⟩, hsame⟩
  | _ => cases he

theorem transposeBroadcastInDim_exact (hy : e.eval = some y)
    (he : TransposeBroadcastInDimToBroadcastInDim e = some e') : ∃ z, e'.eval = some z ∧ Same z y := by
  rw [TransposeBroadcastInDimToBroadcastInDim.eq_def] at he
  split at he
  · cases he
    obtain ⟨x, hx, -, h⟩ := eval_broadcastInDim hy
    obtain ⟨w, hw, hshape, htranspose, -⟩ := eval_transpose hx
    obtain ⟨z, hz, hsame⟩ := exists_transposeBroadcastInDim htranspose h
    exact ⟨z, bind_eq_some_iff.mpr ⟨w, hw, hshape ▸ hz⟩, hsame⟩
  · cases he

theorem broadcastInDimTranspose_exact (hy : e.eval = some y)
    (he : BroadcastInDimTransposeToBroadcastInDim e = some e') : ∃ z, e'.eval = some z ∧ Same z y := by
  rw [BroadcastInDimTransposeToBroadcastInDim.eq_def] at he
  split at he
  · cases he
    obtain ⟨x, hx, -, htranspose, hshape⟩ := eval_transpose hy
    obtain ⟨w, hw, -, h⟩ := eval_broadcastInDim hx
    obtain ⟨z, hz, hsame⟩ := exists_broadcastInDimTranspose h htranspose
    exact ⟨z, bind_eq_some_iff.mpr ⟨w, hw, hshape ▸ hz⟩, hsame⟩
  · cases he

end

/-- Whatever a pattern makes of a broadcast or a transpose without empty dimensions is well formed and has the same
elements. -/
theorem broadcast_rewrites_exact {α : Type*} (pattern : Pattern) (e e' : Expr α) (y : Tensor α)
    (hpos : ∀ n ∈ e.type, 0 < n) (hy : e.eval = some y) (he : pattern.rewrite e = some e') :
    ∃ z, e'.eval = some z ∧ Same z y := by
  cases pattern with
  | broadcastInDimOpCanon => exact broadcastInDimOpCanon_exact hpos hy he
  | transposeBroadcastInDim => exact transposeBroadcastInDim_exact hy he
  | broadcastInDimTranspose => exact broadcastInDimTranspose_exact hy he

/-- Two unit dimensions that a broadcast expands move to the two unit dimensions of the result. -/
theorem broadcast_rewrites_exact_units : ∃ z : Tensor Int,
    (Expr.broadcastInDim [3, 1, 2, 1] (.value ⟨[1, 1], fun _ => 5⟩) [1, 3]).eval = some z ∧
      Same z ⟨[3, 1, 2, 1], fun _ => 5⟩ :=
  broadcast_rewrites_exact .broadcastInDimOpCanon
    (.broadcastInDim [3, 1, 2, 1] (.value ⟨[1, 1], fun _ => 5⟩) [0, 2]) _ _ (by decide) rfl rfl

end EnzymeJax.BroadcastCanon
