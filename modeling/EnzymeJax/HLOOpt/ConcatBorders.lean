import EnzymeJax.Library.Framed

/-!
# Concatenations that are framed

The operands at the ends of a concatenation are slices of one tensor, and the concatenation is an update of what they
are slices of, or broadcasts of one value, and the concatenation is a pad.
-/

namespace EnzymeJax.ConcatBorders

open Tensor Option Function
open List hiding allSome

/-! ### The patterns -/

inductive Operand
  | slice (operand : Nat) (dims : List SliceDim)
  | broadcast (operand : Nat) (sizes : List Nat)
  | value (v : Nat)

/-- The shape of the operand, where the shapes of the values are `types`. -/
def Operand.shape (types : Nat → List Nat) : Operand → List Nat
  | slice _ dims => dims.map SliceDim.size
  | broadcast operand sizes => sizes ++ types operand
  | value v => types v

inductive SliceRequirement
  | AnyOperand
  | NeedsSlice
  | NeedsFull
  deriving DecidableEq

/-- An update of a value, or of a slice of it, with the operands in the middle. -/
structure NewUpdate where
  operand : Nat
  slice : Option (List SliceDim)
  middle : List Operand
  starts : List Int

def newOps (operands : List Operand) (start stop : Nat) : List Operand := (operands.drop start).take (stop - start)

section

variable (types : Nat → List Nat) (concatType : List Nat) (dimension : Nat) (operands : List Operand)

def concatToDusSliceCommon (sliceReq : SliceRequirement) : Option NewUpdate :=
  if operands.length < 3 then none
  else
    match operands.head?, operands.getLast? with
    | some (.slice lhsOperand lhs), some (.slice rhsOperand rhs) =>
      let hasSlice := lhs.any (fun s => s.start ≠ 0) ∨ ∃ i < rhs.length, coord (types rhsOperand) i ≠ coord concatType i
      if ¬lhs.all (fun s => s.stride = 1) then none
      else if ¬(∀ i < rhs.length, (sliceDim rhs i).stride = 1 ∧
          if i = dimension then (sliceDim lhs i).start + coord concatType i = (sliceDim rhs i).limit
          else (sliceDim lhs i).start = (sliceDim rhs i).start ∧ (sliceDim lhs i).limit = (sliceDim rhs i).limit) then
        none
      else if sliceReq = .NeedsSlice ∧ ¬hasSlice then none
      else if sliceReq = .NeedsFull ∧ hasSlice then none
      else if rhsOperand ≠ lhsOperand then none
      else some {
        operand := lhsOperand
        slice := if hasSlice then some (List.zipWith (fun l r => ⟨l.start, r.limit, l.stride⟩) lhs rhs) else none
        middle := newOps operands 1 (operands.length - 1)
        starts := (List.replicate concatType.length 0).set dimension ((sliceDim lhs dimension).size : Int) }
    | _, _ => none

/-- The slice at the left end, if it is one: of all but what comes after it in the dimension. -/
def lhsSlice : Option (Option (Nat × List SliceDim)) :=
  match operands.head? with
  | some (.slice operand dims) =>
    if ∀ i < dims.length, (sliceDim dims i).start = 0 ∧
        (i ≠ dimension → coord (types operand) i = coord concatType i) ∧ (sliceDim dims i).stride = 1 then
      some (some (operand, dims))
    else none
  | _ => some none

/-- The slice at the right end, if it is one. -/
def rhsSlice : Option (Option (Nat × List SliceDim)) :=
  match operands.getLast? with
  | some (.slice operand dims) =>
    if ∀ i < dims.length, (sliceDim dims i).limit = coord concatType i ∧
        (i ≠ dimension → coord (types operand) i = coord concatType i) ∧ (sliceDim dims i).stride = 1 then
      some (some (operand, dims))
    else none
  | _ => some none

def isLegalConcatToOneDimDUS : Option (Option (Nat × List SliceDim) × Option (Nat × List SliceDim)) :=
  if operands.length < 2 then none
  else
    match lhsSlice types concatType dimension operands, rhsSlice types concatType dimension operands with
    | some none, some none => none
    | some (some lhs), some none =>
      if coord (types lhs.1) dimension ≠ coord concatType dimension then none else some (some lhs, none)
    | some none, some (some rhs) =>
      if coord (types rhs.1) dimension ≠ coord concatType dimension then none else some (none, some rhs)
    | some (some lhs), some (some rhs) =>
      if operands.length = 2 then none
      else if lhs.1 ≠ rhs.1 then none
      else if coord (types lhs.1) dimension ≠ coord concatType dimension then none
      else some (some lhs, some rhs)
    | _, _ => none

def concatToOneDimDUS : Option NewUpdate := do
  let (lhs, rhs) ← isLegalConcatToOneDimDUS types concatType dimension operands
  let start := if lhs.isSome then 1 else 0
  let stop := operands.length - if rhs.isSome then 1 else 0
  let slice ← lhs <|> rhs
  return {
    operand := slice.1
    slice := none
    middle := newOps operands start stop
    starts := (List.replicate concatType.length 0).set dimension
      (lhs.elim 0 fun lhs => ((sliceDim lhs.2 dimension).size : Int)) }

/-- What replaces the concatenation: the broadcast at the left, with a bigger one that is not used, or a pad. -/
inductive NewPad
  | replaced (bigger left : Operand)
  | pad (value : Nat) (dims : List PadDim) (middle : Option (List Operand))

def asBroadcast : Option Operand → Option (Nat × List Nat)
  | some (.broadcast operand sizes) => some (operand, sizes)
  | _ => none

/-- The operands from `start` on, as many as the unsigned `size`, if there are so many. -/
def operandSlice (start size : Nat) : Option (List Operand) :=
  if start + size ≤ operands.length then some ((operands.drop start).take size) else none

def ConcatBroadcastToPad : Option NewPad :=
  let leftBroadcast := asBroadcast operands.head?
  let rightBroadcast := asBroadcast operands.getLast?
  let extent (b : Nat × List Nat) : Nat := coord ((Operand.broadcast b.1 b.2).shape types) dimension
  let pad (value : Nat) (leftPad rightPad start stop : Nat) : NewPad :=
    .pad value ((List.replicate concatType.length ⟨0, 0, 0⟩).set dimension ⟨leftPad, rightPad, 0⟩)
      (operandSlice operands start (((stop : Int) - start) % 2 ^ 32).toNat)
  match leftBroadcast, rightBroadcast with
  | none, none => none
  | some left, none => some (pad left.1 (extent left) 0 1 operands.length)
  | none, some right => some (pad right.1 0 (extent right) 0 (operands.length - 1))
  | some left, some right =>
    if right.1 ≠ left.1 then some (pad left.1 (extent left) 0 1 operands.length)
    else if operands.length = 2 then some (.replaced (.broadcast right.1 concatType) (.broadcast left.1 left.2))
    else some (pad right.1 (extent left) (extent right) 1 (operands.length - 1))

end

/-! ### The ops -/

section

variable {α : Type} (env : Nat → Tensor α)

/-- The operand at the end of the dimensions of the result. -/
def broadcast (sizes : List Nat) (x : Tensor α) : Tensor α :=
  ⟨sizes ++ x.shape, fun idx => x.get (idx.drop sizes.length)⟩

def Operand.eval : Operand → Option (Tensor α)
  | slice operand dims => Tensor.slice dims (env operand)
  | broadcast operand sizes => some (ConcatBorders.broadcast sizes (env operand))
  | value v => some (env v)

def original (dimension : Nat) (operands : List Operand) : Option (Tensor α) :=
  (allSome (operands.map (Operand.eval env))).bind (concatenate dimension)

def evalMiddle (dimension : Nat) (middle : List Operand) : Option (Tensor α) :=
  (allSome (middle.map (Operand.eval env))).bind (join dimension)

def NewUpdate.eval (dimension : Nat) (new : NewUpdate) : Option (Tensor α) := do
  let operand ← new.slice.elim (some (env new.operand)) fun dims => Tensor.slice dims (env new.operand)
  let innerConcat ← evalMiddle env dimension new.middle
  dynamicUpdateSlice new.starts innerConcat operand

/-- The padding value of a `pad` is a scalar. -/
def NewPad.eval (dimension : Nat) : NewPad → Option (Tensor α)
  | replaced _ left => left.eval env
  | pad value dims middle => do
    let middle ← middle
    let middle ← evalMiddle env dimension middle
    if (env value).shape = [] then Tensor.pad dims ((env value).get []) middle else none

end

/-- The values have the shapes that they are declared with. -/
def Typed {α : Type} (types : Nat → List Nat) (env : Nat → Tensor α) : Prop := ∀ v, (env v).shape = types v

/-- What the verifier asks of the concatenation. An op has fewer than `2 ^ 32` operands. -/
structure Verified (types : Nat → List Nat) (concatType : List Nat) (dimension : Nat) (operands : List Operand) :
    Prop where
  type_eq : concatType = concatenateShape dimension (operands.map (Operand.shape types))
  concatenate_ok : ConcatenateOk dimension (operands.map (Operand.shape types))
  slices_ok : ∀ v dims, Operand.slice v dims ∈ operands → List.Forall₂ SliceDim.Ok dims (types v)
  length_lt : operands.length < 2 ^ 32

/-- Whatever the values are, what replaces the concatenation is the same. -/
def Preserves (α : Type) (types : Nat → List Nat) (dimension : Nat) (operands : List Operand)
    (new : (Nat → Tensor α) → Option (Tensor α)) : Prop :=
  ∀ (env : Nat → Tensor α) (z : Tensor α), Typed types env → original env dimension operands = some z →
    ∃ w, new env = some w ∧ Same w z

/-! ### The operands -/

section

variable {α : Type} {types : Nat → List Nat} {concatType : List Nat} {d : Nat} {operands pre mids post : List Operand}
  {env : Nat → Tensor α} {o : Operand} {t v x y z : Tensor α} {ds : List SliceDim} {c : Nat → Nat}

theorem shape_eval (henv : Typed types env) (h : o.eval env = some t) : t.shape = o.shape types := by
  cases o with
  | slice v dims => exact (read_slice h).2.1
  | broadcast v sizes =>
    cases h
    exact congrArg (sizes ++ ·) (henv v)
  | value v =>
    cases h
    exact henv v

theorem shape_original (hv : Verified types concatType d operands) (henv : Typed types env)
    (hz : original env d operands = some z) : z.shape = concatType := by
  obtain ⟨ts, hts, hz⟩ := bind_eq_some_iff.mp hz
  have hshapes : ts.map Tensor.shape = operands.map (Operand.shape types) := by
    rw [← forall₂_eq_eq_eq, forall₂_map_left_iff, forall₂_map_right_iff]
    exact (allSome_map_iff.mp hts).flip.imp fun _ _ h => shape_eval henv h
  rw [hv.type_eq, ← hshapes]
  cases ts with
  | nil => cases hz
  | cons t ts =>
    obtain ⟨-, hz⟩ := ite_none_right_eq_some.mp hz
    cases hz
    rfl

theorem exists_original (hv : Verified types concatType d operands) (henv : Typed types env) :
    ∃ z, original env d operands = some z := by
  obtain ⟨ts, hts⟩ : ∃ ts, allSome (operands.map (Operand.eval env)) = some ts := by
    refine exists_allSome_iff.mpr fun a ha => ?_
    obtain ⟨o, ho, rfl⟩ := mem_map.mp ha
    cases o with
    | slice v dims => exact ⟨_, if_pos ((henv v).symm ▸ hv.slices_ok v dims ho)⟩
    | broadcast v sizes | value v => exact ⟨_, rfl⟩
  have hshapes : ts.map Tensor.shape = operands.map (Operand.shape types) := by
    rw [← forall₂_eq_eq_eq, forall₂_map_left_iff, forall₂_map_right_iff]
    exact (allSome_map_iff.mp hts).flip.imp fun _ _ h => shape_eval henv h
  have hok := hv.concatenate_ok
  rw [← hshapes] at hok
  cases ts with
  | nil => cases hok
  | cons t ts => exact ⟨_, bind_eq_some_iff.mpr ⟨t :: ts, hts, if_pos hok⟩⟩

theorem exists_middle (hz : original env d (pre ++ mids ++ post) = some z) (hne : mids ≠ []) :
    ∃ xs ms ys m, allSome (pre.map (Operand.eval env)) = some xs ∧ allSome (post.map (Operand.eval env)) = some ys ∧
      concatenate d (xs ++ ms ++ ys) = some z ∧ evalMiddle env d mids = some m ∧ Joined d z.shape ms m := by
  obtain ⟨ts, hts, hz⟩ := bind_eq_some_iff.mp hz
  obtain ⟨xms, ys, rfl, hxms, hys⟩ := allSome_append hts
  obtain ⟨xs, ms, rfl, hxs, hms⟩ := allSome_append hxms
  obtain ⟨hd, -, hfits, -⟩ := pieces_of_concatenate hz
  have hmsne : ms ≠ [] := by
    rintro rfl
    exact hne (forall₂_nil_right_iff.mp (allSome_map_iff.mp hms))
  obtain ⟨m, hm, hjoined⟩ := exists_joined hd (fitTogether_append.mp (fitTogether_append.mp hfits).1).2 hmsne
  exact ⟨xs, ms, ys, m, hxs, hys, hz, bind_eq_some_iff.mpr ⟨ms, hms, hm⟩, hjoined⟩

theorem exists_singleton {xs : List (Tensor α)} (h : allSome ([o].map (Operand.eval env)) = some xs) :
    ∃ x, xs = [x] ∧ o.eval env = some x := by
  obtain ⟨x, xs', hx, hnil, rfl⟩ := forall₂_cons_left_iff.mp (allSome_map_iff.mp h)
  obtain rfl := forall₂_nil_left_iff.mp hnil
  exact ⟨x, rfl, hx⟩

theorem newOps_append (pre mids post : List Operand) :
    newOps (pre ++ mids ++ post) pre.length ((pre ++ mids ++ post).length - post.length) = mids := by
  rw [newOps, append_assoc, drop_left, length_append, length_append]
  have hlen : pre.length + (mids.length + post.length) - post.length - pre.length = mids.length := by omega
  rw [hlen, take_left]

/-! ### Slices at the ends -/

section

variable (h : slice ds v = some x) (hunit : ∀ e < ds.length, (sliceDim ds e).stride = 1)

include h hunit

theorem read_unit (hc : Within x.shape c) : x.read c = v.read fun e => ((sliceDim ds e).start + c e).toNat := by
  obtain ⟨hlen, -, hok, hread⟩ := read_slice h
  rw [hread c hc]
  refine read_congr v fun e he => ?_
  rw [SliceDim.source, hunit e (hlen.symm ▸ he), mul_one]

theorem coord_unit {e : Nat}
    (he : e < ds.length) : (coord x.shape e : Int) = (sliceDim ds e).limit - (sliceDim ds e).start := by
  obtain ⟨-, -, hok, -⟩ := read_slice h
  have hle := (hok e he).2.1
  rw [coord_slice h he, SliceDim.size, hunit e he, Int.ediv_one]
  omega

end

section

variable {xs : List (Tensor α)} (hz : concatenate d xs = some z) (hx : x ∈ xs)

include hz hx

theorem coord_operand {e : Nat} (hed : e ≠ d) : coord x.shape e = coord z.shape e := by
  obtain ⟨-, -, hfits, -⟩ := pieces_of_concatenate hz
  have hcoord := congrArg (coord · e) (hfits x hx)
  rwa [coord_set_of_ne hed, coord_set_of_ne hed] at hcoord

theorem length_operand : x.shape.length = z.shape.length := by
  obtain ⟨-, -, hfits, -⟩ := pieces_of_concatenate hz
  exact hfits.length_shape hx

theorem within_operand (hc : Within z.shape c)
    {k : Nat} (hk : k < coord x.shape d) : Within x.shape (update c d k) := by
  intro e he
  by_cases hed : e = d
  · rwa [hed, update_self]
  · rw [update_of_ne hed, coord_operand hz hx hed]
    exact hc e (length_operand hz hx ▸ he)

end

theorem exists_ends (h : 2 ≤ operands.length) : ∃ a mids b, operands = [a] ++ mids ++ [b] := by
  cases operands with
  | nil => exact absurd h (by decide)
  | cons a rest =>
    rcases eq_nil_or_concat rest with rfl | ⟨mids, b, rfl⟩
    · exact absurd h (by rw [length_singleton]; omega)
    · exact ⟨a, mids, b, by rw [concat_eq_append]; rfl⟩

theorem head?_ends (a : Operand) (rest : List Operand) : ([a] ++ mids ++ rest).head? = some a := rfl

theorem getLast?_ends (front : List Operand) (b : Operand) : (front ++ [b]).getLast? = some b :=
  getLast?_concat

end

/-! ### Updates of what is sliced -/

/-- Slices of `operand` at both ends, without strides, the second after the first in the dimension. -/
structure DusSlice (types : Nat → List Nat) (concatType : List Nat) (d : Nat) (operands : List Operand)
    (operand : Nat) (lhs rhs : List SliceDim) (mids : List Operand) : Prop where
  operands_eq : operands = [.slice operand lhs] ++ mids ++ [.slice operand rhs]
  mids_ne : mids ≠ []
  lhs_unit : ∀ e < lhs.length, (sliceDim lhs e).stride = 1
  rhs_unit : ∀ e < rhs.length, (sliceDim rhs e).stride = 1
  limit_eq : d < rhs.length → (sliceDim lhs d).start + coord concatType d = (sliceDim rhs d).limit
  others : ∀ e < rhs.length, e ≠ d → (sliceDim lhs e).start = (sliceDim rhs e).start ∧
    (sliceDim lhs e).limit = (sliceDim rhs e).limit

section

variable {α : Type} {types : Nat → List Nat} {concatType : List Nat} {d : Nat} {operands mids : List Operand}
  {env : Nat → Tensor α} {new : NewUpdate} {sliceReq : SliceRequirement} {v : Nat} {lhs rhs : List SliceDim}
  {x y z : Tensor α} {c : Nat → Nat}

theorem concatToDusSliceCommon_eq_some (h : concatToDusSliceCommon types concatType d operands sliceReq = some new) :
    ∃ v lhs rhs mids, DusSlice types concatType d operands v lhs rhs mids ∧ new.operand = v ∧ new.middle = mids ∧
      new.starts = (replicate concatType.length 0).set d ((sliceDim lhs d).size : Int) ∧
      (new.slice = some (zipWith (fun l r => ⟨l.start, r.limit, l.stride⟩) lhs rhs) ∨
        (new.slice = none ∧ (∀ e < lhs.length, (sliceDim lhs e).start = 0) ∧
          ∀ e < rhs.length, coord (types v) e = coord concatType e)) := by
  rw [concatToDusSliceCommon] at h
  split_ifs at h with hlen
  obtain ⟨a, mids, b, rfl⟩ := exists_ends (by omega : 2 ≤ operands.length)
  rw [head?_ends, getLast?_ends] at h
  cases a with
  | broadcast v sizes | value v => cases h
  | slice v lhs =>
    cases b with
    | broadcast w sizes | value w => cases h
    | slice w rhs =>
      obtain ⟨hlhs, h⟩ := ite_none_left_eq_some.mp h
      obtain ⟨hrhs, h⟩ := ite_none_left_eq_some.mp h
      obtain ⟨-, h⟩ := ite_none_left_eq_some.mp h
      obtain ⟨-, h⟩ := ite_none_left_eq_some.mp h
      obtain ⟨hoperand, h⟩ := ite_none_left_eq_some.mp h
      obtain rfl := not_not.mp hoperand
      cases h
      have hall := not_not.mp hrhs
      refine ⟨w, lhs, rhs, mids, ⟨rfl, ?_, fun e he => ?_, fun e he => (hall e he).1, fun hd => ?_, fun e he hed => ?_⟩,
        rfl, newOps_append _ _ _, rfl, ?_⟩
      · rintro rfl
        exact hlen (Nat.lt_succ_self 2)
      · have hat := all_eq_true.mp (not_not.mp hlhs) _ (getElem_mem he)
        rw [sliceDim_eq_getElem he]
        exact of_decide_eq_true hat
      · have hat := (hall d hd).2
        rwa [if_pos rfl] at hat
      · have hat := (hall e he).2
        rwa [if_neg hed] at hat
      · by_cases hslice : (lhs.any fun s => decide (s.start ≠ 0)) = true ∨
          ∃ i < rhs.length, coord (types w) i ≠ coord concatType i
        · exact .inl (if_pos hslice)
        · obtain ⟨hzero, hshape⟩ := not_or.mp hslice
          refine .inr ⟨if_neg hslice, fun e he => ?_, fun e he => ?_⟩
          · by_contra hne
            rw [sliceDim_eq_getElem he] at hne
            exact hzero (any_eq_true.mpr ⟨lhs[e], getElem_mem he, decide_eq_true hne⟩)
          · by_contra hne
            exact hshape ⟨e, he, hne⟩

/-- The update is the concatenation, if what is updated has the elements of the slices at both ends. -/
theorem preserves_of_ends (start : Nat → Int) {pre post : List Operand}
    (hz : original env d (pre ++ mids ++ post) = some z) (hne : mids ≠ [])
    (hupdated : new.slice.elim (some (env new.operand)) (fun dims => slice dims (env new.operand)) = some x)
    (hxshape : x.shape = z.shape)
    (hxread : ∀ c, Within z.shape c → x.read c = (env new.operand).read fun e => (start e + c e).toNat)
    (hmiddle : new.middle = mids) (hstarts : ∀ xs, allSome (pre.map (Operand.eval env)) = some xs →
      new.starts = (replicate z.shape.length 0).set d (total d xs : Int))
    (hpre : ∀ o ∈ pre, ∃ lhs, o = .slice new.operand lhs ∧ pre = [o] ∧ ∀ e < lhs.length,
      (sliceDim lhs e).stride = 1 ∧ (sliceDim lhs e).start = start e)
    (hpost : ∀ o ∈ post, ∃ rhs, o = .slice new.operand rhs ∧ post = [o] ∧ ∀ e < rhs.length,
      (sliceDim rhs e).stride = 1 ∧
        if e = d then (sliceDim rhs e).limit = start e + coord z.shape e else (sliceDim rhs e).start = start e) :
    ∃ w, new.eval env d = some w ∧ Same w z := by
  obtain ⟨xs, ms, ys, m, hxs, hys, hconcat, hm, hjoined⟩ := exists_middle hz hne
  obtain ⟨hd, -, -, -⟩ := pieces_of_concatenate hconcat
  have htotal := total_framed hconcat
  have hbefore : ∀ c, Within z.shape c → c d < total d xs → pieceAt d xs c = some (x.read c) := by
    intro c hc hlt
    cases pre with
    | nil =>
      cases hxs
      exact absurd hlt (Nat.not_lt_zero _)
    | cons o rest =>
      obtain ⟨lhs, ho, hpre', hdims⟩ := hpre o mem_cons_self
      obtain rfl := (cons.inj hpre').2
      obtain ⟨y, rfl, hy⟩ := exists_singleton hxs
      rw [ho] at hy
      have hlen := length_operand hconcat (x := y) (by simp)
      have hmem : y ∈ [y] ++ ms ++ ys := by simp
      rw [total_cons, total_nil, add_zero] at hlt
      have hcy : Within y.shape c := by
        have hwithin := within_operand hconcat hmem hc hlt
        rwa [update_eq_self] at hwithin
      rw [pieceAt, if_pos hlt, hxread c hc, read_unit hy (fun e he => (hdims e he).1) hcy]
      refine congrArg some (read_congr _ fun e he => ?_)
      rw [(hdims e ((read_slice hy).1.symm ▸ he)).2]
  have hafter : ∀ c, Within z.shape c → total d xs + total d ms ≤ c d →
      pieceAt d ys (update c d (c d - (total d xs + total d ms))) = some (x.read c) := by
    intro c hc hge
    cases post with
    | nil =>
      cases hys
      rw [total_nil] at htotal
      have hlt := hc d hd
      omega
    | cons o rest =>
      obtain ⟨rhs, ho, hpost', hdims⟩ := hpost o mem_cons_self
      obtain rfl := (cons.inj hpost').2
      obtain ⟨y, rfl, hy⟩ := exists_singleton hys
      rw [ho] at hy
      have hmem : y ∈ xs ++ ms ++ [y] := by simp
      have hlen := length_operand hconcat hmem
      have hylength := length_slice hy
      rw [total_cons, total_nil, add_zero] at htotal
      have hlt : c d - (total d xs + total d ms) < coord y.shape d := by
        have hlt := hc d hd
        omega
      have hcy := within_operand hconcat hmem hc hlt
      rw [pieceAt, update_self, if_pos hlt, hxread c hc, read_unit hy (fun e he => (hdims e he).1) hcy]
      refine congrArg some (read_congr _ fun e he => ?_)
      have he' : e < rhs.length := (read_slice hy).1.symm ▸ he
      have hat := (hdims e he').2
      by_cases hed : e = d
      · subst hed
        have hsize := coord_unit hy (fun e he => (hdims e he).1) he'
        rw [if_pos rfl] at hat
        rw [update_self]
        omega
      · rw [if_neg hed] at hat
        rw [update_of_ne hed, hat]
  obtain ⟨w, hw, hsame⟩ := framed_update hconcat hjoined hxshape hbefore hafter
  refine ⟨w, ?_, hsame⟩
  rw [NewUpdate.eval, hupdated, hmiddle, hm, hstarts xs hxs]
  exact hw

theorem ok_of_mem (hv : Verified types concatType d operands) (henv : Typed types env)
    {ds : List SliceDim} (h : Operand.slice v ds ∈ operands) : ds.length = (env v).shape.length ∧
      ∀ e < ds.length, (sliceDim ds e).Ok (coord (env v).shape e) := by
  rw [henv v]
  exact forall₂_ok_iff.mp (hv.slices_ok v ds h)

/-- The update of what is sliced at both ends is the concatenation. -/
theorem preserves_concatToDusSliceCommon (hv : Verified types concatType d operands)
    (h : concatToDusSliceCommon types concatType d operands sliceReq = some new) :
    Preserves α types d operands (fun env => new.eval env d) := by
  obtain ⟨v, lhs, rhs, mids, hdus, hoperand, hmiddle, hstarts, hslice⟩ := concatToDusSliceCommon_eq_some h
  obtain ⟨rfl, hne, hlhs, hrhs, hlimit, hothers⟩ := hdus
  intro env z henv hz
  have hzshape := shape_original hv henv hz
  obtain ⟨hlen, hlhsOk⟩ :=
    ok_of_mem hv henv (show Operand.slice v lhs ∈ Operand.slice v lhs :: (mids ++ [Operand.slice v rhs]) by simp)
  obtain ⟨hlen', hrhsOk⟩ :=
    ok_of_mem hv henv (show Operand.slice v rhs ∈ Operand.slice v lhs :: (mids ++ [Operand.slice v rhs]) by simp)
  obtain ⟨xs, ms, ys, m, hxs, hys, hconcat, -, -⟩ := exists_middle hz hne
  obtain ⟨a, rfl, ha⟩ := exists_singleton hxs
  obtain ⟨hd, -, -, -⟩ := pieces_of_concatenate hconcat
  have hrank : lhs.length = z.shape.length :=
    (length_slice ha).symm.trans (length_operand hconcat (by simp))
  have hd' : d < rhs.length := by rw [hlen', ← hlen, hrank]; exact hd
  have hsizes : ∀ e < lhs.length, e ≠ d → (coord z.shape e : Int) = (sliceDim lhs e).limit - (sliceDim lhs e).start := by
    intro e he hed
    rw [← coord_operand hconcat (x := a) (by simp) hed]
    exact coord_unit ha hlhs he
  have hlimitD := hlimit hd'
  rw [← hzshape] at hlimitD
  obtain ⟨x, hx, hxshape, hxread⟩ : ∃ x, new.slice.elim (some (env new.operand))
      (fun dims => slice dims (env new.operand)) = some x ∧ x.shape = z.shape ∧ ∀ c, Within z.shape c →
        x.read c = (env new.operand).read fun e => ((sliceDim lhs e).start + c e).toNat := by
    rw [hoperand]
    rcases hslice with hslice | ⟨hslice, hzero, hsame⟩
    · have hdim : ∀ e < lhs.length, sliceDim (zipWith (fun l r => ⟨l.start, r.limit, l.stride⟩) lhs rhs) e =
          ⟨(sliceDim lhs e).start, (sliceDim rhs e).limit, 1⟩ := by
        intro e he
        have he' : e < rhs.length := by rw [hlen', ← hlen]; exact he
        rw [sliceDim_eq_getElem (by simp [he, he']), getElem_zipWith, ← sliceDim_eq_getElem,
          ← sliceDim_eq_getElem, hlhs e he]
      have hdims : (zipWith (fun l r => (⟨l.start, r.limit, l.stride⟩ : SliceDim)) lhs rhs).length =
          lhs.length := by rw [length_zipWith, hlen', ← hlen, min_self]
      have hlimits : ∀ e < lhs.length, (sliceDim rhs e).limit = (sliceDim lhs e).start + coord z.shape e := by
        intro e he
        have he' : e < rhs.length := by rw [hlen', ← hlen]; exact he
        by_cases hed : e = d
        · rw [hed]
          exact hlimitD.symm
        · have hsize := hsizes e he hed
          have hother := (hothers e he' hed).2
          omega
      obtain ⟨x, hx⟩ := exists_slice (hdims.trans hlen) fun e he => by
        have he' : e < lhs.length := hdims ▸ he
        have hat := hlimits e he'
        rw [hdim e he']
        exact ⟨(hlhsOk e he').1, by dsimp only; omega, (hrhsOk e (by rwa [hlen', ← hlen])).2.2.1, Int.one_pos⟩
      refine ⟨x, by rw [hslice]; exact hx, eq_of_coord ((length_slice hx).trans (hdims.trans hrank)) fun e he => ?_,
        fun c hc => ?_⟩
      · have he' : e < lhs.length := by rwa [length_slice hx, hdims] at he
        have hsize := coord_unit hx (fun e he => by rw [hdim e (hdims ▸ he)]) (hdims.symm ▸ he')
        have hat := hlimits e he'
        rw [hdim e he'] at hsize
        dsimp only at hsize
        omega
      · have hcx : Within x.shape c := by
          intro e he
          have he' : e < lhs.length := by rwa [length_slice hx, hdims] at he
          have hsize := coord_unit hx (fun e he => by rw [hdim e (hdims ▸ he)]) (hdims.symm ▸ he')
          have hat := hlimits e he'
          have hlt := hc e (hrank ▸ he')
          rw [hdim e he'] at hsize
          dsimp only at hsize
          omega
        rw [read_unit hx (fun e he => by rw [hdim e (hdims ▸ he)]) hcx]
        refine read_congr _ fun e he => ?_
        rw [hdim e (hlen.symm ▸ he)]
    · refine ⟨env v, by rw [hslice]; rfl, eq_of_coord (hlen.symm.trans hrank) fun e he => ?_, fun c hc => ?_⟩
      · rw [hzshape, henv v]
        exact hsame e (hlen'.symm ▸ he)
      · refine read_congr _ fun e he => ?_
        rw [hzero e (hlen.symm ▸ he), zero_add, Int.toNat_natCast]
  refine preserves_of_ends _ hz hne hx hxshape hxread hmiddle (fun xs hxs => ?_) (fun o ho => ?_) fun o ho => ?_
  · obtain ⟨b, rfl, hb⟩ := exists_singleton hxs
    rw [hstarts, total_cons, total_nil, add_zero, coord_slice hb (hrank.symm ▸ hd), hzshape]
  · exact ⟨lhs, by rw [hoperand]; exact mem_singleton.mp ho, by rw [mem_singleton.mp ho], fun e he => ⟨hlhs e he, rfl⟩⟩
  · refine ⟨rhs, by rw [hoperand]; exact mem_singleton.mp ho, by rw [mem_singleton.mp ho], fun e he => ⟨hrhs e he, ?_⟩⟩
    split
    · rename_i hed
      rw [hed]
      exact hlimitD.symm
    · rename_i hed
      exact (hothers e he hed).1.symm

end

/-! ### Updates of one dimension -/

structure LeftBorder (types : Nat → List Nat) (concatType : List Nat) (d operand : Nat) (dims : List SliceDim) :
    Prop where
  start_eq : ∀ e < dims.length, (sliceDim dims e).start = 0
  others : ∀ e < dims.length, e ≠ d → coord (types operand) e = coord concatType e
  unit : ∀ e < dims.length, (sliceDim dims e).stride = 1

structure RightBorder (types : Nat → List Nat) (concatType : List Nat) (d operand : Nat) (dims : List SliceDim) :
    Prop where
  limit_eq : ∀ e < dims.length, (sliceDim dims e).limit = coord concatType e
  others : ∀ e < dims.length, e ≠ d → coord (types operand) e = coord concatType e
  unit : ∀ e < dims.length, (sliceDim dims e).stride = 1

/-- Borders of `operand` at one or both ends, with other operands between them. -/
structure OneDim (types : Nat → List Nat) (concatType : List Nat) (d : Nat) (operands : List Operand) (operand : Nat)
    (pre mids post : List Operand) : Prop where
  operands_eq : operands = pre ++ mids ++ post
  mids_ne : mids ≠ []
  left : pre = [] ∨ ∃ lhs, pre = [.slice operand lhs] ∧ LeftBorder types concatType d operand lhs
  right : post = [] ∨ ∃ rhs, post = [.slice operand rhs] ∧ RightBorder types concatType d operand rhs
  ends : pre ≠ [] ∨ post ≠ []
  extent_eq : coord (types operand) d = coord concatType d

section

variable {α : Type} {types : Nat → List Nat} {concatType : List Nat} {d : Nat} {operands mids pre post : List Operand}
  {env : Nat → Tensor α} {new : NewUpdate} {v : Nat} {lhs rhs : List SliceDim} {x y z : Tensor α} {c : Nat → Nat}
  {found : Nat × List SliceDim}

theorem lhsSlice_eq_some (h : lhsSlice types concatType d operands = some (some found)) :
    operands.head? = some (.slice found.1 found.2) ∧ LeftBorder types concatType d found.1 found.2 := by
  rw [lhsSlice] at h
  split at h
  · rename_i v dims hhead
    obtain ⟨hall, h⟩ := ite_none_right_eq_some.mp h
    cases some.inj h
    exact ⟨hhead, fun e he => (hall e he).1, fun e he => (hall e he).2.1, fun e he => (hall e he).2.2⟩
  · cases some.inj h

theorem rhsSlice_eq_some (h : rhsSlice types concatType d operands = some (some found)) :
    operands.getLast? = some (.slice found.1 found.2) ∧ RightBorder types concatType d found.1 found.2 := by
  rw [rhsSlice] at h
  split at h
  · rename_i v dims hlast
    obtain ⟨hall, h⟩ := ite_none_right_eq_some.mp h
    cases some.inj h
    exact ⟨hlast, fun e he => (hall e he).1, fun e he => (hall e he).2.1, fun e he => (hall e he).2.2⟩
  · cases some.inj h

theorem concatToOneDimDUS_eq_some (h : concatToOneDimDUS types concatType d operands = some new) :
    ∃ pre mids post, OneDim types concatType d operands new.operand pre mids post ∧ new.slice = none ∧
      new.middle = mids ∧
      (pre = [] → new.starts = (replicate concatType.length 0).set d 0) ∧
      ∀ lhs, pre = [.slice new.operand lhs] →
        new.starts = (replicate concatType.length 0).set d ((sliceDim lhs d).size : Int) := by
  obtain ⟨ends, hends, h⟩ := bind_eq_some_iff.mp h
  rw [isLegalConcatToOneDimDUS] at hends
  obtain ⟨hlen, hends⟩ := ite_none_left_eq_some.mp hends
  obtain ⟨a, rest, b, rfl⟩ := exists_ends (not_lt.mp hlen)
  split at hends
  · cases hends
  · -- a left border only
    rename_i lhs hlhs hrhs
    obtain ⟨hextent, hends⟩ := ite_none_left_eq_some.mp hends
    cases hends
    cases h
    obtain ⟨hhead, hborder⟩ := lhsSlice_eq_some hlhs
    cases hhead
    refine ⟨[.slice lhs.1 lhs.2], rest ++ [b], [], ⟨by simp, by simp, .inr ⟨lhs.2, rfl, hborder⟩, .inl rfl,
      .inl (cons_ne_nil _ _), not_not.mp hextent⟩, rfl, ?_, fun hnil => ?_, fun lhs' hlhs' => ?_⟩
    · have hops := newOps_append [Operand.slice lhs.1 lhs.2] (rest ++ [b]) []
      rw [append_nil, ← append_assoc] at hops
      exact hops
    · cases hnil
    · obtain rfl := (Operand.slice.inj (cons.inj hlhs').1).2
      rfl
  · -- a right border only
    rename_i rhs hlhs hrhs
    obtain ⟨hextent, hends⟩ := ite_none_left_eq_some.mp hends
    cases hends
    cases h
    obtain ⟨hlast, hborder⟩ := rhsSlice_eq_some hrhs
    rw [getLast?_ends] at hlast
    cases hlast
    refine ⟨[], [a] ++ rest, [.slice rhs.1 rhs.2], ⟨rfl, by simp, .inl rfl, .inr ⟨rhs.2, rfl, hborder⟩,
      .inr (cons_ne_nil _ _), not_not.mp hextent⟩, rfl, ?_, fun _ => rfl, fun lhs' hlhs' => ?_⟩
    · exact newOps_append [] ([a] ++ rest) [Operand.slice rhs.1 rhs.2]
    · cases hlhs'
  · -- both
    rename_i lhs rhs hlhs hrhs
    obtain ⟨htwo, hends⟩ := ite_none_left_eq_some.mp hends
    obtain ⟨hsame, hends⟩ := ite_none_left_eq_some.mp hends
    obtain ⟨hextent, hends⟩ := ite_none_left_eq_some.mp hends
    cases hends
    cases h
    obtain ⟨hhead, hleft⟩ := lhsSlice_eq_some hlhs
    obtain ⟨hlast, hright⟩ := rhsSlice_eq_some hrhs
    cases hhead
    rw [getLast?_ends] at hlast
    cases hlast
    have hsame := not_not.mp hsame
    refine ⟨[.slice lhs.1 lhs.2], rest, [.slice rhs.1 rhs.2], ⟨rfl, ?_, .inr ⟨lhs.2, rfl, hleft⟩,
      .inr ⟨rhs.2, congrArg (fun v => [Operand.slice v rhs.2]) hsame.symm, hsame ▸ hright⟩,
      .inl (cons_ne_nil _ _), not_not.mp hextent⟩, rfl, newOps_append _ _ _, fun hnil => ?_, fun lhs' hlhs' => ?_⟩
    · rintro rfl
      exact htwo rfl
    · cases hnil
    · obtain rfl := (Operand.slice.inj (cons.inj hlhs').1).2
      rfl
  · cases hends

theorem shape_of_borders (hv : Verified types concatType d operands) (henv : Typed types env)
    (hone : OneDim types concatType d operands v pre mids post) (hz : original env d operands = some z) :
    (env v).shape = z.shape := by
  have hzshape := shape_original hv henv hz
  have hborder : ∃ dims, Operand.slice v dims ∈ operands ∧
      ∀ e < dims.length, e ≠ d → coord (types v) e = coord concatType e := by
    rcases hone.ends with hpre | hpost
    · rcases hone.left with hnil | ⟨lhs, hlhs, hborder⟩
      · exact absurd hnil hpre
      · exact ⟨lhs, by rw [hone.operands_eq, hlhs]; simp, hborder.others⟩
    · rcases hone.right with hnil | ⟨rhs, hrhs, hborder⟩
      · exact absurd hnil hpost
      · exact ⟨rhs, by rw [hone.operands_eq, hrhs]; simp, hborder.others⟩
  obtain ⟨dims, hmem, hothers⟩ := hborder
  obtain ⟨hlen, -⟩ := ok_of_mem hv henv hmem
  obtain ⟨ts, hts, hconcat⟩ := bind_eq_some_iff.mp hz
  obtain ⟨i, hi, hget⟩ := getElem_of_mem hmem
  have hevals := forall₂_iff_get.mp (allSome_map_iff.mp hts)
  have hit : i < ts.length := hevals.1 ▸ hi
  have heval := hevals.2 i hi hit
  rw [get_eq_getElem, hget] at heval
  have hrank : dims.length = z.shape.length :=
    (length_slice heval).symm.trans (length_operand hconcat (getElem_mem hit))
  refine eq_of_coord (hlen.symm.trans hrank) fun e he => ?_
  rw [hzshape, henv v]
  by_cases hed : e = d
  · rw [hed]
    exact hone.extent_eq
  · exact hothers e (hlen.symm ▸ he) hed

theorem preserves_concatToOneDimDUS (hv : Verified types concatType d operands)
    (h : concatToOneDimDUS types concatType d operands = some new) :
    Preserves α types d operands (fun env => new.eval env d) := by
  obtain ⟨pre, mids, post, hone, hslice, hmiddle, hnil, hleft⟩ := concatToOneDimDUS_eq_some h
  intro env z henv hz
  have hshape := shape_of_borders hv henv hone hz
  have hzshape := shape_original hv henv hz
  have hops := hone.operands_eq
  have hz' := hz
  rw [hops] at hz'
  obtain ⟨xs, ms, ys, m, hxs, hys, hconcat, -, -⟩ := exists_middle hz' hone.mids_ne
  obtain ⟨hd, -, -, -⟩ := pieces_of_concatenate hconcat
  refine preserves_of_ends (fun _ => 0) hz' hone.mids_ne (by rw [hslice]; rfl) hshape (fun c _ => ?_) hmiddle
    (fun xs hxs => ?_) (fun o ho => ?_) fun o ho => ?_
  · refine read_congr _ fun e _ => ?_
    rw [zero_add, Int.toNat_natCast]
  · rcases hone.left with rfl | ⟨lhs, rfl, -⟩
    · cases hxs
      rw [hnil rfl, hzshape, total_nil]
      rfl
    · obtain ⟨b, rfl, hb⟩ := exists_singleton hxs
      have hlen : d < lhs.length := by
        rw [(ok_of_mem hv henv (by rw [hops]; simp : Operand.slice new.operand lhs ∈ operands)).1, hshape]
        exact hd
      rw [hleft lhs rfl, hzshape, total_cons, total_nil, add_zero, coord_slice hb hlen]
  · rcases hone.left with rfl | ⟨lhs, rfl, hborder⟩
    · exact absurd ho not_mem_nil
    · obtain rfl := mem_singleton.mp ho
      exact ⟨lhs, rfl, rfl, fun e he => ⟨hborder.unit e he, hborder.start_eq e he⟩⟩
  · rcases hone.right with rfl | ⟨rhs, rfl, hborder⟩
    · exact absurd ho not_mem_nil
    · obtain rfl := mem_singleton.mp ho
      obtain ⟨y, rfl, hy⟩ := exists_singleton hys
      refine ⟨rhs, rfl, rfl, fun e he => ⟨hborder.unit e he, ?_⟩⟩
      rw [hzshape]
      split
      · rw [zero_add]
        exact hborder.limit_eq e he
      · -- all of the other dimensions is sliced
        rename_i hed
        have hsize := coord_unit hy hborder.unit he
        rw [coord_operand hconcat (by simp) hed, hborder.limit_eq e he, hzshape] at hsize
        omega

end

/-! ### Pads -/

def BroadcastEnd (types : Nat → List Nat) (d v : Nat) (operands : List Operand) (extent : Nat) : Prop :=
  (operands = [] ∧ extent = 0) ∨
    ∃ sizes, operands = [.broadcast v sizes] ∧ extent = coord ((Operand.broadcast v sizes).shape types) d

/-- When what replaces the concatenation is the concatenation: the broadcast at the right has no elements, or there are
operands to pad and the padding value is a scalar. -/
def NewPad.Right (types : Nat → List Nat) (d : Nat) (operands : List Operand) : NewPad → Prop
  | replaced _ _ => ∀ o ∈ operands.getLast?, coord (o.shape types) d = 0
  | pad value _ _ => 2 ≤ operands.length ∧ types value = []

section

variable {α : Type} {types : Nat → List Nat} {concatType : List Nat} {d : Nat} {operands mids pre post : List Operand}
  {env : Nat → Tensor α} {new : NewPad} {v : Nat} {x y z : Tensor α} {c : Nat → Nat}

theorem asBroadcast_eq_some {o : Option Operand} {found : Nat × List Nat} (h : asBroadcast o = some found) :
    o = some (.broadcast found.1 found.2) := by
  cases o with
  | none => cases h
  | some o =>
    cases o with
    | broadcast v sizes => rw [← some.inj h]
    | slice v dims | value v => cases h

theorem operandSlice_append (pre mids post : List Operand) (hlt : (pre ++ mids ++ post).length < 2 ^ 32) :
    operandSlice (pre ++ mids ++ post) pre.length
      ((((pre ++ mids ++ post).length - post.length : Nat) - pre.length : Int) % 2 ^ 32).toNat = some mids := by
  have hsize : ((((pre ++ mids ++ post).length - post.length : Nat) - pre.length : Int) % 2 ^ 32).toNat =
      mids.length := by
    rw [length_append, length_append] at hlt ⊢
    rw [Int.emod_eq_of_lt (by omega) (by omega)]
    omega
  rw [hsize, operandSlice, if_pos (by rw [length_append, length_append]; omega), append_assoc, drop_left, take_left]

theorem ConcatBroadcastToPad_eq_some (hv : Verified types concatType d operands)
    (h : ConcatBroadcastToPad types concatType d operands = some new) :
    (∃ v sizes sizes', operands = [.broadcast v sizes, .broadcast v sizes'] ∧
      new = .replaced (.broadcast v concatType) (.broadcast v sizes)) ∨
    (∃ v dims, operands.length = 1 ∧ new = .pad v dims none) ∨
    ∃ v pre mids post l r, operands = pre ++ mids ++ post ∧ mids ≠ [] ∧ 2 ≤ operands.length ∧
      BroadcastEnd types d v pre l ∧ BroadcastEnd types d v post r ∧
        new = .pad v ((replicate concatType.length ⟨0, 0, 0⟩).set d ⟨l, r, 0⟩) (some mids) := by
  have hlt := hv.length_lt
  have hne : operands ≠ [] := by
    rintro rfl
    exact hv.concatenate_ok
  rw [ConcatBroadcastToPad] at h
  dsimp only at h
  rcases Nat.lt_or_ge operands.length 2 with hone | htwo
  · -- one operand is at both ends
    obtain ⟨a, rest, rfl⟩ := exists_cons_of_ne_nil hne
    obtain rfl := length_eq_zero_iff.mp (Nat.lt_one_iff.mp (Nat.lt_of_succ_lt_succ hone))
    split at h
    · cases h
    iterate 2
      · rename_i hleft hright
        rw [show [a].getLast? = [a].head? from rfl, hleft] at hright
        cases hright
    · rename_i left right hleft hright
      rw [show [a].getLast? = [a].head? from rfl, hleft] at hright
      cases hright
      rw [if_neg (not_not.mpr rfl), if_neg (by omega : ¬[a].length = 2)] at h
      exact .inr (.inl ⟨_, _, rfl, (some.inj h).symm⟩)
  · obtain ⟨a, rest, b, rfl⟩ := exists_ends htwo
    have hleftOnly : ∀ left : Nat × List Nat, asBroadcast ([a] ++ rest ++ [b]).head? = some left →
        NewPad.pad left.1 ((replicate concatType.length ⟨0, 0, 0⟩).set d
          ⟨coord ((Operand.broadcast left.1 left.2).shape types) d, (0 : Nat), 0⟩)
            (operandSlice ([a] ++ rest ++ [b]) 1
              ((((([a] ++ rest ++ [b]).length : Nat) : Int) - (1 : Nat)) % 2 ^ 32).toNat) = new →
        ∃ v pre mids post l r, [a] ++ rest ++ [b] = pre ++ mids ++ post ∧ mids ≠ [] ∧
          2 ≤ ([a] ++ rest ++ [b]).length ∧ BroadcastEnd types d v pre l ∧ BroadcastEnd types d v post r ∧
            new = .pad v ((replicate concatType.length ⟨0, 0, 0⟩).set d ⟨l, r, 0⟩) (some mids) := by
      intro left hleft hnew
      cases asBroadcast_eq_some hleft
      have hslice := operandSlice_append [Operand.broadcast left.1 left.2] (rest ++ [b]) []
        (by rw [append_nil, ← append_assoc]; exact hlt)
      rw [append_nil, ← append_assoc] at hslice
      refine ⟨left.1, [.broadcast left.1 left.2], rest ++ [b], [], _, 0, by simp, by simp, htwo,
        .inr ⟨left.2, rfl, rfl⟩, .inl ⟨rfl, rfl⟩, ?_⟩
      rw [← hnew, ← hslice]
      rfl
    split at h
    · cases h
    · rename_i left hleft hright
      exact .inr (.inr (hleftOnly left hleft (some.inj h)))
    · rename_i right hleft hright
      have hlast := asBroadcast_eq_some hright
      rw [getLast?_ends] at hlast
      cases hlast
      have hslice := operandSlice_append [] ([a] ++ rest) [Operand.broadcast right.1 right.2] hlt
      refine .inr (.inr ⟨right.1, [], [a] ++ rest, [.broadcast right.1 right.2], 0, _, rfl, by simp, htwo,
        .inl ⟨rfl, rfl⟩, .inr ⟨right.2, rfl, rfl⟩, ?_⟩)
      rw [← some.inj h, ← hslice]
      rfl
    · rename_i left right hleft hright
      split_ifs at h with hdiffer htwoOperands
      · exact .inr (.inr (hleftOnly left hleft (some.inj h)))
      · cases asBroadcast_eq_some hleft
        have hlast := asBroadcast_eq_some hright
        rw [getLast?_ends] at hlast
        cases hlast
        have hnil : rest = [] := by
          rw [length_append, length_append, length_singleton, length_singleton] at htwoOperands
          exact length_eq_zero_iff.mp (by omega)
        subst hnil
        have hsame := not_not.mp hdiffer
        refine .inl ⟨left.1, left.2, right.2, by rw [hsame]; rfl, ?_⟩
        rw [← some.inj h, hsame]
      · cases asBroadcast_eq_some hleft
        have hlast := asBroadcast_eq_some hright
        rw [getLast?_ends] at hlast
        cases hlast
        have hsame := not_not.mp hdiffer
        have hslice := operandSlice_append [Operand.broadcast left.1 left.2] rest
          [Operand.broadcast right.1 right.2] hlt
        refine .inr (.inr ⟨right.1, [.broadcast left.1 left.2], rest, [.broadcast right.1 right.2], _, _, rfl, ?_, htwo,
          .inr ⟨left.2, by rw [hsame], rfl⟩, .inr ⟨right.2, rfl, rfl⟩, ?_⟩)
        · rintro rfl
          exact htwoOperands rfl
        · rw [← some.inj h, ← hslice, hsame]
          rfl

theorem pieceAt_end {l : Nat} {xs : List (Tensor α)} (henv : Typed types env) (hscalar : types v = [])
    (hend : BroadcastEnd types d v pre l) (hxs : allSome (pre.map (Operand.eval env)) = some xs) :
    l = total d xs ∧ ∀ c : Nat → Nat, c d < total d xs → pieceAt d xs c = some ((env v).get []) := by
  rcases hend with ⟨rfl, rfl⟩ | ⟨sizes, rfl, rfl⟩
  · cases hxs
    exact ⟨rfl, fun c hlt => absurd hlt (Nat.not_lt_zero _)⟩
  · obtain ⟨t, rfl, ht⟩ := exists_singleton hxs
    cases ht
    have hshape : (env v).shape = [] := (henv v).trans hscalar
    have htotal : total d [broadcast sizes (env v)] = coord (sizes ++ types v) d := by
      rw [total_cons, total_nil, add_zero, broadcast, henv v]
    refine ⟨htotal.symm, fun c hlt => ?_⟩
    rw [total_cons, total_nil, add_zero] at hlt
    rw [pieceAt, if_pos hlt]
    refine congrArg some (congrArg (env v).get (drop_eq_nil_of_le ?_))
    rw [length_map, length_range, broadcast, hshape, append_nil]

theorem eval_pad (env : Nat → Tensor α) (v : Nat) (dims : List PadDim) (mids : List Operand) :
    (NewPad.pad v dims (some mids)).eval env d = (evalMiddle env d mids).bind fun m =>
      if (env v).shape = [] then pad dims ((env v).get []) m else none := rfl

theorem preserves_pad {l r : Nat} (hv : Verified types concatType d operands) (hops : operands = pre ++ mids ++ post)
    (hne : mids ≠ []) (hleft : BroadcastEnd types d v pre l) (hright : BroadcastEnd types d v post r)
    (hscalar : types v = []) : Preserves α types d operands fun env =>
      (NewPad.pad v ((replicate concatType.length ⟨0, 0, 0⟩).set d ⟨l, r, 0⟩) (some mids)).eval env d := by
  intro env z henv hz
  have hzshape := shape_original hv henv hz
  rw [hops] at hz
  obtain ⟨xs, ms, ys, m, hxs, hys, hconcat, hm, hjoined⟩ := exists_middle hz hne
  obtain ⟨hl, hpre⟩ := pieceAt_end henv hscalar hleft hxs
  obtain ⟨hr, hpost⟩ := pieceAt_end henv hscalar hright hys
  have htotal := total_framed hconcat
  obtain ⟨hd, -, -, -⟩ := pieces_of_concatenate hconcat
  obtain ⟨w, hw, hsame⟩ := framed_pad hconcat hjoined (fun c _ hlt => hpre c hlt) fun c hc hge => by
    refine hpost _ ?_
    have hlt := hc d hd
    rw [update_self]
    omega
  refine ⟨w, ?_, hsame⟩
  have hshape : (env v).shape = [] := (henv v).trans hscalar
  beta_reduce
  rw [eval_pad, hm, bind_some, if_pos hshape, ← hzshape, hl, hr]
  exact hw

theorem exists_typed (α : Type) [Nonempty α] (types : Nat → List Nat) : ∃ env : Nat → Tensor α, Typed types env := by
  obtain ⟨a⟩ : Nonempty α := inferInstance
  exact ⟨fun v => splat (types v) a, fun v => rfl⟩

/-- Exactly when what replaces the concatenation is the concatenation. -/
theorem ConcatBroadcastToPad_right_iff (α : Type) [Nonempty α] (hv : Verified types concatType d operands)
    (h : ConcatBroadcastToPad types concatType d operands = some new) :
    Preserves α types d operands (fun env => new.eval env d) ↔ new.Right types d operands := by
  obtain ⟨env₀, henv₀⟩ := exists_typed α types
  obtain ⟨z₀, hz₀⟩ := exists_original hv henv₀
  rcases ConcatBroadcastToPad_eq_some hv h with ⟨v, sizes, sizes', rfl, rfl⟩ | ⟨v, dims, hone, rfl⟩ |
    ⟨v, pre, mids, post, l, r, hops, hne, htwo, hleft, hright, rfl⟩
  · -- the broadcast at the left
    have hextents : ∀ (env : Nat → Tensor α) (z : Tensor α), Typed types env →
        original env d [.broadcast v sizes, .broadcast v sizes'] = some z →
          concatenate d [broadcast sizes (env v), broadcast sizes' (env v)] = some z ∧ coord z.shape d =
            coord (broadcast sizes (env v)).shape d + coord ((Operand.broadcast v sizes').shape types) d := by
      intro env z henv hz
      have hconcat : concatenate d [broadcast sizes (env v), broadcast sizes' (env v)] = some z := hz
      have hshape : (broadcast sizes' (env v)).shape = (Operand.broadcast v sizes').shape types :=
        shape_eval henv rfl
      exact ⟨hconcat, by rw [coord_concatenate hconcat, total_cons, total_cons, total_nil, add_zero, hshape]⟩
    constructor
    · intro hpreserves o ho
      obtain rfl : Operand.broadcast v sizes' = o := some.inj ho
      obtain ⟨-, hextent⟩ := hextents env₀ z₀ henv₀ hz₀
      obtain ⟨w, hw, hsame⟩ := hpreserves env₀ z₀ henv₀ hz₀
      cases hw
      rw [← hsame.shape_eq] at hextent
      omega
    · intro hright env z henv hz
      obtain ⟨hconcat, hextent⟩ := hextents env z henv hz
      have hzero : coord ((Operand.broadcast v sizes').shape types) d = 0 := hright _ rfl
      rw [hzero, add_zero] at hextent
      obtain ⟨hd, -, -, -⟩ := pieces_of_concatenate hconcat
      have hshape : (broadcast sizes (env v)).shape = z.shape := by
        refine eq_of_coord (length_operand hconcat (by simp)) fun e _ => ?_
        by_cases hed : e = d
        · rw [hed, hextent]
        · exact coord_operand hconcat (by simp) hed
      refine ⟨_, rfl, same_of_read hshape fun c hc => ?_⟩
      rw [hshape] at hc
      have hread := read_concatenate hconcat hc
      rw [pieceAt, if_pos (hextent ▸ hc d hd)] at hread
      exact (some.inj hread).symm
  · -- a concatenation of one operand
    constructor
    · intro hpreserves
      obtain ⟨w, hw, -⟩ := hpreserves env₀ z₀ henv₀ hz₀
      cases hw
    · rintro ⟨htwo, -⟩
      omega
  · constructor
    · intro hpreserves
      obtain ⟨w, hw, -⟩ := hpreserves env₀ z₀ henv₀ hz₀
      refine ⟨htwo, ?_⟩
      beta_reduce at hw
      rw [eval_pad] at hw
      obtain ⟨m, -, hw⟩ := bind_eq_some_iff.mp hw
      obtain ⟨hscalar, -⟩ := ite_none_right_eq_some.mp hw
      rw [← henv₀ v, hscalar]
    · rintro ⟨-, hscalar⟩
      exact preserves_pad hv hops hne hleft hright hscalar

/-- The updates are the concatenation, and exactly when the pad is. -/
theorem concatBorders_right_iff (α : Type) [Nonempty α] (hv : Verified types concatType d operands) :
    (∀ sliceReq new, concatToDusSliceCommon types concatType d operands sliceReq = some new →
      Preserves α types d operands fun env => new.eval env d) ∧
    (∀ new, concatToOneDimDUS types concatType d operands = some new →
      Preserves α types d operands fun env => new.eval env d) ∧
    ∀ new, ConcatBroadcastToPad types concatType d operands = some new →
      (Preserves α types d operands (fun env => new.eval env d) ↔ new.Right types d operands) :=
  ⟨fun _ _ h => preserves_concatToDusSliceCommon hv h, fun _ h => preserves_concatToOneDimDUS hv h,
    fun _ h => ConcatBroadcastToPad_right_iff α hv h⟩

end

/-! ### A tensor of three elements, one of one, and a scalar -/

def smallTypes : Nat → List Nat
  | 0 => [3]
  | 1 => [1]
  | _ => []

/-- The first and the last element of three, with another one between them. -/
def framedOperands : List Operand := [.slice 0 [⟨0, 1, 1⟩], .value 1, .slice 0 [⟨2, 3, 1⟩]]

theorem verified_framed : Verified smallTypes [3] 0 framedOperands := by
  refine ⟨rfl, by decide, fun v dims h => ?_, by decide⟩
  rcases mem_cons.mp h with h | h
  · obtain ⟨rfl, rfl⟩ := Operand.slice.inj h
    exact .cons (by decide) .nil
  · rcases mem_cons.mp h with h | h
    · cases h
    · obtain ⟨rfl, rfl⟩ := Operand.slice.inj (mem_singleton.mp h)
      exact .cons (by decide) .nil

/-- The update of three elements, and the scalar before one element. -/
theorem concatBorders_right_iff_three :
    Preserves Bool smallTypes 0 framedOperands
      (fun env => NewUpdate.eval env 0 ⟨0, none, [.value 1], [1]⟩) ∧
    Preserves Bool smallTypes 0 [.broadcast 2 [1], .value 1]
      (fun env => NewPad.eval env 0 (.pad 2 [⟨1, 0, 0⟩] (some [.value 1]))) := by
  have hv : Verified smallTypes [2] 0 [.broadcast 2 [1], .value 1] := by
    refine ⟨rfl, by decide, fun v dims h => ?_, by decide⟩
    rcases mem_cons.mp h with h | h
    · cases h
    · cases mem_singleton.mp h
  exact ⟨(concatBorders_right_iff Bool verified_framed).2.1 _ rfl,
    ((concatBorders_right_iff Bool hv).2.2 _ rfl).mpr ⟨le_rfl, rfl⟩⟩

/-- A scalar at both ends, and nothing between them. -/
theorem not_preserves_two_broadcasts : Verified smallTypes [2] 0 [.broadcast 2 [1], .broadcast 2 [1]] ∧
    ConcatBroadcastToPad smallTypes [2] 0 [.broadcast 2 [1], .broadcast 2 [1]] =
      some (.replaced (.broadcast 2 [2]) (.broadcast 2 [1])) ∧
    ¬Preserves Bool smallTypes 0 [.broadcast 2 [1], .broadcast 2 [1]]
      (fun env => NewPad.eval env 0 (.replaced (.broadcast 2 [2]) (.broadcast 2 [1]))) := by
  have hv : Verified smallTypes [2] 0 [.broadcast 2 [1], .broadcast 2 [1]] := by
    refine ⟨rfl, by decide, fun v dims h => ?_, by decide⟩
    rcases mem_cons.mp h with h | h
    · cases h
    · cases mem_singleton.mp h
  refine ⟨hv, rfl, fun h => ?_⟩
  have hright := (ConcatBroadcastToPad_right_iff Bool hv rfl).mp h
  exact absurd (hright _ rfl) (by decide)

end EnzymeJax.ConcatBorders
