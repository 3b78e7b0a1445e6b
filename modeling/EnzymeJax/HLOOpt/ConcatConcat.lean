import EnzymeJax.HLOOpt.SliceOps
import EnzymeJax.Library.Beside

/-!
# Concatenations of concatenations

Inner operands that are first and last slices of one tensor, which follow each other along another dimension, become
an update of one slice of the tensor.
-/

namespace EnzymeJax.ConcatConcat

open Tensor Option Function
open List hiding allSome

structure ConcatenateOp where
  operands : List Operand
  dimension : Nat

/-- An operand of the outer concatenation. -/
inductive OuterOperand
  | concatenate (op : ConcatenateOp)
  | value (v : Nat)

def OuterOperand.concatOp : OuterOperand → Option ConcatenateOp
  | .concatenate op => some op
  | .value _ => none

/-! ### The ops -/

section

variable {α : Type} (env : Nat → Tensor α)

def ConcatenateOp.eval (op : ConcatenateOp) : Option (Tensor α) :=
  (allSome (op.operands.map (Operand.eval env))).bind (concatenate op.dimension)

def OuterOperand.eval : OuterOperand → Option (Tensor α)
  | .concatenate op => op.eval env
  | .value v => some (env v)

def original (operands : List OuterOperand) (o : Nat) : Option (Tensor α) :=
  (allSome (operands.map (OuterOperand.eval env))).bind (concatenate o)

end

/-! ### The pattern -/

def dimLegal (o j : Nat) (nextStart : Int) (first slice2 : SliceDim) : Bool :=
  if j = o then slice2.start = nextStart
  else slice2.start = first.start ∧ slice2.limit = first.limit ∧ slice2.stride = 1 ∧ first.stride = 1

def legal (o : Nat) (first : SliceOp) : Int → List (Option Operand) → Bool
  | _, [] => true
  | nextStart, some (.slice slice2) :: rest =>
    slice2.operand = first.operand ∧ (∀ j < first.dims.length, dimLegal o j nextStart (first.dim j) (slice2.dim j)) ∧
        legal o first (slice2.dim o).limit rest
  | _, _ => false

def firstSlice (o : Nat) : List (Option Operand) → Option SliceOp
  | some (.slice first) :: rest => if legal o first (first.dim o).limit rest then some first else none
  | _ => none

structure NewOps where
  newInner : List ConcatenateOp
  newSlice : SliceOp
  starts : List Int

def lastSlice (inners : List ConcatenateOp) : Option SliceOp :=
  match inners.getLast?.bind fun concat => concat.operands.getLast? with
  | some (.slice last) => some last
  | _ => none

def ConcatConcatToDUS (outerShape : List Nat) (operands : List OuterOperand) (o : Nat) : Option NewOps := do
  guard (2 ≤ operands.length)
  let inners ← allSome (operands.map OuterOperand.concatOp)
  let first ← inners.head?
  guard (∀ concatOp ∈ inners, concatOp.dimension ≠ o ∧ 2 ≤ concatOp.operands.length ∧
    concatOp.operands.length = first.operands.length ∧ concatOp.dimension = first.dimension)
  let lhs ← firstSlice o (inners.map fun concat => concat.operands.head?)
  let rhs ← firstSlice o (inners.map fun concat => concat.operands.getLast?)
  guard (rhs.operand = lhs.operand ∧
    (rhs.dim first.dimension).limit - (lhs.dim first.dimension).start = coord outerShape first.dimension)
  guard (∀ j < lhs.dims.length, j ≠ first.dimension →
    (lhs.dim j).start = (rhs.dim j).start ∧ (lhs.dim j).limit = (rhs.dim j).limit)
  let last ← lastSlice inners
  return ⟨inners.map fun concat => ⟨concat.operands.tail.dropLast, concat.dimension⟩, sliceTo lhs last,
    (List.replicate lhs.dims.length 0).set o (lhs.dim o).size⟩

section

variable {α : Type} (env : Nat → Tensor α) (ops : NewOps)

def NewOps.newOuter (o : Nat) : Option (Tensor α) :=
  (allSome (ops.newInner.map (ConcatenateOp.eval env))).bind (concatenate o)

def NewOps.eval (o : Nat) : Option (Tensor α) := do
  let newOuter ← ops.newOuter env o
  let newSlice ← ops.newSlice.eval env
  dynamicUpdateSlice ops.starts newOuter newSlice

/-- The new ops are well formed and have the elements of the concatenation, whatever the values are. -/
def Preserves (α : Type) (shapes : Nat → List Nat) (operands : List OuterOperand) (o : Nat) (ops : NewOps) :
    Prop :=
  ∀ (env : Nat → Tensor α) (y : Tensor α), (∀ v, (env v).shape = shapes v) →
    original env operands o = some y → ∃ z, ops.eval env o = some z ∧ Same z y

end

/-! ### What is matched -/

/-- The operands of an inner concatenation. -/
@[ext]
structure Row where
  left : SliceOp
  middle : List Operand
  right : SliceOp

def Row.op (n : Nat) (row : Row) : ConcatenateOp := ⟨.slice row.left :: (row.middle ++ [.slice row.right]), n⟩

/-- A slice that is the first one but for dimension `o`. -/
structure Follows (o : Nat) (first s : SliceOp) : Prop where
  operand_eq : s.operand = first.operand
  dim_eq : ∀ j < first.dims.length, j ≠ o → (s.dim j).start = (first.dim j).start ∧
    (s.dim j).limit = (first.dim j).limit ∧ (s.dim j).stride = 1 ∧ (first.dim j).stride = 1

def Adjacent (o : Nat) (s s' : SliceOp) : Prop := (s'.dim o).start = (s.dim o).limit

section

variable {o n : Nat} {first : SliceOp}

variable {rest : List (Option Operand)} {inners : List ConcatenateOp} {operands : List OuterOperand}

theorem legal_spec (ho : o < first.dims.length) {prev : SliceOp} (h : legal o first (prev.dim o).limit rest) :
    ∃ ss : List SliceOp, rest = ss.map (fun s => some (.slice s)) ∧ (∀ s ∈ ss, Follows o first s) ∧
      (prev :: ss).IsChain (Adjacent o) := by
  induction rest generalizing prev with
  | nil => exact ⟨[], rfl, fun s hs => (not_mem_nil hs).elim, .singleton prev⟩
  | cons operand rest ih =>
    rcases operand with _ | ⟨slice2⟩ | _
    · cases h
    · rw [legal] at h
      obtain ⟨hoperand, hdims, hrest⟩ := decide_eq_true_eq.mp h
      obtain ⟨ss, rfl, hss, hchain⟩ := ih hrest
      have hfollows : Follows o first slice2 := by
        refine ⟨hoperand, fun j hj hjo => ?_⟩
        have hlegal := hdims j hj
        rw [dimLegal, if_neg hjo] at hlegal
        exact decide_eq_true_eq.mp hlegal
      have hadjacent : Adjacent o prev slice2 := by
        have hlegal := hdims o ho
        rw [dimLegal, if_pos rfl] at hlegal
        have hstart := of_decide_eq_true hlegal
        exact hstart
      exact ⟨slice2 :: ss, rfl, forall_mem_cons.mpr ⟨hfollows, hss⟩, .cons_cons hadjacent hchain⟩
    · cases h

theorem firstSlice_spec {l : List (Option Operand)} (h : firstSlice o l = some first) (ho : o < first.dims.length) :
    ∃ ss : List SliceOp, l = (first :: ss).map (fun s => some (.slice s)) ∧
      (∀ s ∈ ss, Follows o first s) ∧ (first :: ss).IsChain (Adjacent o) := by
  unfold firstSlice at h
  split at h
  · split at h
    · rename_i hlegal
      cases h
      obtain ⟨ss, rfl, hss, hchain⟩ := legal_spec ho hlegal
      exact ⟨ss, rfl, hss, hchain⟩
    · cases h
  · cases h

theorem head_of_firstSlice {operand : Option Operand} (h : firstSlice o (operand :: rest) = some first) :
    operand = some (.slice first) := by
  unfold firstSlice at h
  split at h
  · rename_i heq
    split at h
    · rw [← some.inj h]
      exact (cons.inj heq).1
    · cases h
  · cases h

/-- The inner concatenations, one row each, and the new ops. -/
structure Matched (outerShape : List Nat) (operands : List OuterOperand) (o n : Nat) (row : Row)
    (rest : List Row) (last : Row) (ops : NewOps) : Prop where
  operands_eq : operands = (row :: rest).map fun row => .concatenate (row.op n)
  last_eq : rest.getLast? = some last
  ne : o ≠ n
  middle_length : ∀ r ∈ row :: rest, r.middle.length = row.middle.length
  left : ∀ r ∈ rest, Follows o row.left r.left
  right : ∀ r ∈ rest, Follows o row.right r.right
  chain : ((row :: rest).map Row.right).IsChain (Adjacent o)
  operand_eq : row.right.operand = row.left.operand
  size_eq : (row.right.dim n).limit - (row.left.dim n).start = coord outerShape n
  dims_eq : ∀ j < row.left.dims.length, j ≠ n → (row.left.dim j).start = (row.right.dim j).start ∧
    (row.left.dim j).limit = (row.right.dim j).limit
  ops_eq : ops = ⟨(row :: rest).map fun r => ⟨r.middle, n⟩, sliceTo row.left last.right,
    (List.replicate row.left.dims.length 0).set o (row.left.dim o).size⟩

theorem exists_row {concat : ConcatenateOp} {l r : SliceOp} (h : 2 ≤ concat.operands.length)
    (hl : concat.operands.head? = some (.slice l)) (hr : concat.operands.getLast? = some (.slice r)) :
    ∃ middle, concat = Row.op concat.dimension ⟨l, middle, r⟩ := by
  obtain ⟨operands, n⟩ := concat
  obtain ⟨tail, rfl⟩ := head?_eq_some_iff.mp hl
  obtain ⟨init, hinit⟩ := getLast?_eq_some_iff.mp hr
  cases init with
  | nil =>
    change Operand.slice l :: tail = _ at hinit
    change 2 ≤ (Operand.slice l :: tail).length at h
    rw [hinit] at h
    exact absurd h (Nat.not_succ_le_self 1)
  | cons operand middle =>
    obtain ⟨rfl, rfl⟩ := cons.inj hinit
    exact ⟨middle, rfl⟩

theorem exists_rows (h : ∀ concat ∈ inners, ∃ row : Row, row.op n = concat) :
    ∃ rows : List Row, inners = rows.map (Row.op n) := by
  have hmem : inners ∈ Set.range (List.map (Row.op n)) := by
    rw [Set.range_list_map]
    exact h
  obtain ⟨rows, hrows⟩ := hmem
  exact ⟨rows, hrows.symm⟩

theorem map_slice_injective : Function.Injective (List.map fun s : SliceOp => some (Operand.slice s)) :=
  map_injective_iff.mpr fun _ _ h => Operand.slice.inj (some.inj h)

theorem getLast?_op (n : Nat) (row : Row) : (row.op n).operands.getLast? = some (.slice row.right) :=
  getLast?_append_of_ne_nil (Operand.slice row.left :: row.middle) (cons_ne_nil _ _)

theorem eq_map_concatenate (h : operands.map OuterOperand.concatOp = inners.map some) :
    operands = inners.map .concatenate := by
  induction operands generalizing inners with
  | nil => rw [map_eq_nil_iff.mp h.symm, map_nil]
  | cons operand operands ih =>
    cases inners with
    | nil => cases h
    | cons concat inners =>
      obtain ⟨hhead, htail⟩ := cons.inj h
      cases operand with
      | concatenate op =>
        cases hhead
        rw [ih htail]
        rfl
      | value v => cases hhead

theorem exists_matched {outerShape : List Nat} {ops : NewOps} (h : ConcatConcatToDUS outerShape operands o = some ops)
    (hrank : ∀ concat, .concatenate concat ∈ operands → ∀ op, .slice op ∈ concat.operands →
      o < op.dims.length) : ∃ n row rest last, Matched outerShape operands o n row rest last ops := by
  rw [ConcatConcatToDUS] at h
  obtain ⟨_, htwo, h⟩ := bind_eq_some_iff.mp h
  obtain ⟨inners, hinners, h⟩ := bind_eq_some_iff.mp h
  obtain ⟨first, hfirst, h⟩ := bind_eq_some_iff.mp h
  obtain ⟨_, hconcats, h⟩ := bind_eq_some_iff.mp h
  obtain ⟨lhs, hlhs, h⟩ := bind_eq_some_iff.mp h
  obtain ⟨rhs, hrhs, h⟩ := bind_eq_some_iff.mp h
  obtain ⟨_, hsize, h⟩ := bind_eq_some_iff.mp h
  obtain ⟨_, hdims, h⟩ := bind_eq_some_iff.mp h
  obtain ⟨last, hlast, h⟩ := bind_eq_some_iff.mp h
  cases h
  rw [guard_eq_some'] at htwo hconcats hsize hdims
  have hops := eq_map_concatenate (allSome_eq_some_iff.mp hinners)
  obtain ⟨tail, rfl⟩ := head?_eq_some_iff.mp hfirst
  have hmem : .concatenate first ∈ operands := by
    rw [hops]
    exact mem_cons_self
  have hlo : o < lhs.dims.length :=
    hrank first hmem lhs (mem_of_head? (head_of_firstSlice hlhs))
  have hro : o < rhs.dims.length :=
    hrank first hmem rhs (mem_of_getLast? (head_of_firstSlice hrhs))
  obtain ⟨ls, hls, hleft, -⟩ := firstSlice_spec hlhs hlo
  obtain ⟨rs, hrs, hright, hchain⟩ := firstSlice_spec hrhs hro
  obtain ⟨rows, hrows⟩ : ∃ rows : List Row, first :: tail = rows.map (Row.op first.dimension) := by
    refine exists_rows fun concat hconcat => ?_
    obtain ⟨-, hlen, -, hdimension⟩ := hconcats concat hconcat
    have hl : concat.operands.head? ∈ (lhs :: ls).map fun s => some (Operand.slice s) := by
      rw [← hls]
      exact List.mem_map_of_mem hconcat
    have hr : concat.operands.getLast? ∈ (rhs :: rs).map fun s => some (Operand.slice s) := by
      rw [← hrs]
      exact List.mem_map_of_mem hconcat
    obtain ⟨l, -, hl⟩ := List.mem_map.mp hl
    obtain ⟨r, -, hr⟩ := List.mem_map.mp hr
    obtain ⟨middle, hmiddle⟩ := exists_row hlen hl.symm hr.symm
    rw [hdimension] at hmiddle
    exact ⟨_, hmiddle.symm⟩
  rw [hrows, List.map_map] at hls hrs
  have hlefts : rows.map Row.left = lhs :: ls := by
    refine map_slice_injective ?_
    rw [← hls, List.map_map]
    rfl
  have hrights : rows.map Row.right = rhs :: rs := by
    refine map_slice_injective ?_
    rw [← hrs, List.map_map]
    refine map_congr_left fun r _ => ?_
    exact (getLast?_op first.dimension r).symm
  rw [hrows] at hconcats hlast hops ⊢
  cases rows with
  | nil => cases hlefts
  | cons row rest =>
    obtain ⟨rfl, rfl⟩ := List.cons.inj hlefts
    obtain ⟨rfl, rfl⟩ := List.cons.inj hrights
    have hfirstRow : first = row.op first.dimension := (List.cons.inj hrows).1
    have hne : rest ≠ [] := by
      rintro rfl
      rw [hops] at htwo
      exact absurd htwo (Nat.not_succ_le_self 1)
    obtain ⟨lastRow, hlastRow⟩ : ∃ last, rest.getLast? = some last := ⟨_, getLast?_eq_some_getLast hne⟩
    have hlastEq : last = lastRow.right := by
      have hget : ((row :: rest).map (Row.op first.dimension)).getLast? = some (lastRow.op first.dimension) := by
        rw [getLast?_map, getLast?_cons, hlastRow]
        rfl
      rw [lastSlice, hget, bind_some, getLast?_op] at hlast
      exact (some.inj hlast).symm
    have hrow : ∀ r ∈ row :: rest, first.dimension ≠ o ∧ r.middle.length = row.middle.length := by
      intro r hr
      obtain ⟨hno, -, hlen, -⟩ := hconcats _ (List.mem_map_of_mem hr)
      rw [hfirstRow] at hlen
      refine ⟨hno, ?_⟩
      simpa [Row.op] using hlen
    refine ⟨first.dimension, row, rest, lastRow, ?_, hlastRow, (hrow row mem_cons_self).1.symm,
      fun r hr => (hrow r hr).2, fun r hr => hleft _ (List.mem_map_of_mem hr),
      fun r hr => hright _ (List.mem_map_of_mem hr), hchain, hsize.1, hsize.2, hdims, ?_⟩
    · rw [hops, List.map_map]
      rfl
    · rw [hlastEq, List.map_map]
      refine congrArg (NewOps.mk · _ _) (map_congr_left fun r _ => ?_)
      exact congrArg (ConcatenateOp.mk · _) dropLast_concat

end

/-! ### The parts of the concatenation -/

section

variable {α : Type} {env : Nat → Tensor α} {o n : Nat} {t : Tensor α} {op first : SliceOp}
variable {y : Tensor α}

theorem eval_operands {operands : List OuterOperand} (hy : original env operands o = some y) :
    o < y.shape.length ∧ ∀ concat, .concatenate concat ∈ operands → ∀ operand ∈ concat.operands,
      concat.dimension < y.shape.length ∧ ∃ t, operand.eval env = some t ∧ t.shape.length = y.shape.length ∧
          ∀ d, d ≠ o → d ≠ concat.dimension → coord t.shape d = coord y.shape d := by
  obtain ⟨zs, hzs, hcat⟩ := bind_eq_some_iff.mp hy
  obtain ⟨ho, -, hfits, -⟩ := pieces_of_concatenate hcat
  have hmap := allSome_eq_some_iff.mp hzs
  refine ⟨ho, fun concat hconcat operand hoperand => ?_⟩
  have hz : concat.eval env ∈ zs.map some := by
    rw [← hmap]
    exact mem_map_of_mem hconcat
  obtain ⟨z, hz, hzeval⟩ := mem_map.mp hz
  obtain ⟨ts, hts, hcat'⟩ := bind_eq_some_iff.mp hzeval.symm
  obtain ⟨hn, -, hfits', -⟩ := pieces_of_concatenate hcat'
  have ht : operand.eval env ∈ ts.map some := by
    rw [← allSome_eq_some_iff.mp hts]
    exact mem_map_of_mem hoperand
  obtain ⟨t, ht, hteval⟩ := mem_map.mp ht
  have hzrank := hfits.length_shape hz
  refine ⟨hzrank ▸ hn, t, hteval.symm, (hfits'.length_shape ht).trans hzrank, fun d hdo hdn => ?_⟩
  have htz := congrArg (coord · d) (hfits' t ht)
  have hzy := congrArg (coord · d) (hfits z hz)
  rw [coord_set_of_ne hdn, coord_set_of_ne hdn] at htz
  rw [coord_set_of_ne hdo, coord_set_of_ne hdo] at hzy
  exact htz.trans hzy

def shifted (base : Nat → Nat) (d k : Nat) : Nat := base d + k

theorem takenAlong_of_follows (h : op.eval env = some t) (ho : o < op.dims.length)
    (hlen : first.dims.length = op.dims.length) (hfollows : Follows o first op) :
    TakenAlong o (shifted first.base) (env first.operand) (op.dim o) t := by
  obtain ⟨hrank, -, hok, hread⟩ := eval_slice h
  refine ⟨coord_eval h ho, fun c hc => ?_⟩
  rw [hread c hc, hfollows.operand_eq]
  refine read_congr _ fun d hd => ?_
  rw [← hfollows.operand_eq, ← hrank] at hd
  rw [taken]
  split
  · rename_i hdo
    rw [hdo]
  · rename_i hdo
    obtain ⟨hstart, -, hstride, -⟩ := hfollows.dim_eq d (hlen ▸ hd) hdo
    rw [SliceDim.source_of_unit hstride (hok d hd).1, hstart]
    rfl

/-- A concatenation `z`: the slice `x` on the left, the rest `w`, which is what is in the middle and the
slice `y` on the right. -/
structure RowTensors (α : Type) where
  x : Tensor α
  w : Tensor α
  mid : Tensor α
  y : Tensor α
  z : Tensor α

structure RowParts (env : Nat → Tensor α) (n : Nat) (row : Row) (p : RowTensors α) : Prop where
  middle_eq : (ConcatenateOp.mk row.middle n).eval env = some p.mid
  left : ∃ l, row.left.eval env = some l ∧ Same p.x l
  right : ∃ r, row.right.eval env = some r ∧ Same p.y r
  outer : Beside n (coord p.x.shape n) p.x p.w p.z
  inner : Beside n (coord p.mid.shape n) p.mid p.y p.w

theorem exists_rowParts {row : Row} {z : Tensor α} (hmid : row.middle ≠ [])
    (h : (row.op n).eval env = some z) : ∃ p : RowTensors α, RowParts env n row p ∧ p.z = z := by
  obtain ⟨ts, hts, hz⟩ := bind_eq_some_iff.mp h
  have hmap := (allSome_eq_some_iff.mp hts).symm
  obtain ⟨l, ts', rfl, hl, hmap⟩ := map_eq_cons_iff.mp hmap
  rw [map_append] at hmap
  obtain ⟨ms, rs, rfl, hms, hrs⟩ := map_eq_append_iff.mp hmap
  obtain ⟨r, rfl, hr⟩ := map_eq_singleton_iff.mp hrs
  have hlen : ms.length = row.middle.length := by
    simpa using congrArg length hms
  have hne : ms ≠ [] := by
    rintro rfl
    exact hmid (eq_nil_of_length_eq_zero hlen.symm)
  obtain ⟨x, w, mid, y, hcat, hx, hy, houter, hinner⟩ := beside_three hz hne
  have hmiddle : (ConcatenateOp.mk row.middle n).eval env = some mid := by
    rw [ConcatenateOp.eval, allSome_eq_some_iff.mpr hms.symm]
    exact hcat
  rw [← coord_concatenate hcat] at hinner
  rw [← hx.shape_eq] at houter
  exact ⟨⟨x, w, mid, y, z⟩, ⟨hmiddle, ⟨l, hl.symm, hx⟩, ⟨r, hr.symm, hy⟩, houter, hinner⟩, rfl⟩

variable {rows : List Row} {β : Type} {bs : List β} {x mid w : Tensor α} {base : Nat → Nat} {dims : List SliceDim}
  {starts : List Int}

theorem exists_rowsParts {zs : List (Tensor α)} (hmid : ∀ r ∈ rows, r.middle ≠ [])
    (h : rows.map (fun r => (r.op n).eval env) = zs.map some) :
    ∃ ps : List (RowTensors α), Forall₂ (RowParts env n) rows ps ∧ ps.map RowTensors.z = zs := by
  induction rows generalizing zs with
  | nil => exact ⟨[], .nil, (map_eq_nil_iff.mp h.symm).symm⟩
  | cons r rows ih =>
    obtain ⟨z, zs, rfl, hz, hzs⟩ := map_eq_cons_iff.mp h.symm
    obtain ⟨ps, hps, rfl⟩ := ih (fun r' hr' => hmid r' (mem_cons_of_mem _ hr')) hzs.symm
    obtain ⟨p, hp, rfl⟩ := exists_rowParts (hmid r mem_cons_self) hz.symm
    exact ⟨p :: ps, .cons hp hps, rfl⟩

/-- The concatenations of the parts of all rows. -/
structure Parts (o n : Nat) (ps : List (RowTensors α)) (L W Mid R y : Tensor α) : Prop where
  left : concatenate o (ps.map RowTensors.x) = some L
  middle : concatenate o (ps.map RowTensors.mid) = some Mid
  right : concatenate o (ps.map RowTensors.y) = some R
  outer : Beside n (coord L.shape n) L W y
  inner : Beside n (coord Mid.shape n) Mid R W

theorem exists_of_forall₂ {γ : Type} {P : β → γ → Prop} {cs : List γ} (h : Forall₂ P bs cs) : ∀ c ∈ cs, ∃ b, P b c := by
  intro c hc
  obtain ⟨i, hi, rfl⟩ := getElem_of_mem hc
  exact ⟨_, (forall₂_iff_get.mp h).2 i (h.length_eq ▸ hi) hi⟩

theorem exists_parts {ps : List (RowTensors α)} {a b : Nat} (hps : Forall₂ (RowParts env n) rows ps)
    (hon : o ≠ n) (hleft : ∀ p ∈ ps, coord p.x.shape n = a) (hright : ∀ p ∈ ps, coord p.y.shape n = b)
    (hy : concatenate o (ps.map RowTensors.z) = some y) :
    ∃ L W Mid R, Parts o n ps L W Mid R y ∧ coord L.shape n = a ∧ coord R.shape n = b := by
  have hparts := exists_of_forall₂ hps
  have houter : ∀ t ∈ ps.map fun p => (p.x, p.w, p.z), Beside n a t.1 t.2.1 t.2.2 := by
    intro t ht
    obtain ⟨p, hp, rfl⟩ := List.mem_map.mp ht
    obtain ⟨r, hr⟩ := hparts p hp
    rw [← hleft p hp]
    exact hr.outer
  obtain ⟨L, W, hL, hW, hbeside⟩ := beside_concatenate houter hon (by rw [List.map_map]; exact hy)
  rw [List.map_map] at hL hW
  obtain ⟨-, -, hfits, -⟩ := pieces_of_concatenate hW
  have hmid : ∀ p ∈ ps, coord p.mid.shape n = coord W.shape n - b := by
    intro p hp
    obtain ⟨r, hr⟩ := hparts p hp
    have hw := congrArg (coord · n) (hfits p.w (List.mem_map_of_mem hp))
    rw [coord_set_of_ne hon.symm, coord_set_of_ne hon.symm] at hw
    have hb := hright p hp
    rw [hr.inner.right_shape, coord_set_self hr.inner.lt] at hb
    have hle := hr.inner.le
    omega
  have hinner : ∀ t ∈ ps.map fun p => (p.mid, p.y, p.w), Beside n (coord W.shape n - b) t.1 t.2.1 t.2.2 := by
    intro t ht
    obtain ⟨p, hp, rfl⟩ := List.mem_map.mp ht
    obtain ⟨r, hr⟩ := hparts p hp
    rw [← hmid p hp]
    exact hr.inner
  obtain ⟨Mid, R, hMid, hR, hbeside'⟩ := beside_concatenate hinner hon (by rw [List.map_map]; exact hW)
  rw [List.map_map] at hMid hR
  have hLa : coord L.shape n = a := by rw [hbeside.left_shape, coord_set_self hbeside.lt]
  have hM : coord Mid.shape n = coord W.shape n - b := by
    rw [hbeside'.left_shape, coord_set_self hbeside'.lt]
  obtain ⟨-, hne, hfits', -⟩ := pieces_of_concatenate hR
  obtain ⟨_, hmem⟩ := exists_mem_of_ne_nil _ hne
  obtain ⟨p, hp, rfl⟩ := List.mem_map.mp hmem
  have hRb := congrArg (coord · n) (hfits' p.y (List.mem_map_of_mem hp))
  rw [coord_set_of_ne hon.symm, coord_set_of_ne hon.symm, hright p hp] at hRb
  refine ⟨L, W, Mid, R, ⟨hL, hMid, hR, ?_, ?_⟩, hLa, hRb.symm⟩
  · rwa [hLa]
  · rwa [hM]

theorem Follows.size_eq {s : SliceOp} (h : Follows o first s) {j : Nat} (hj : j < first.dims.length)
    (hjo : j ≠ o) : (s.dim j).size = (first.dim j).size := by
  obtain ⟨hstart, hlimit, hstride, hstride'⟩ := h.dim_eq j hj hjo
  rw [SliceDim.size_of_unit hstride, SliceDim.size_of_unit hstride', hstart, hlimit]

section

variable {outerShape : List Nat} {operands : List OuterOperand} {row last : Row} {rest : List Row} {ops : NewOps}

section

variable (hm : Matched outerShape operands o n row rest last ops)

include hm

theorem Matched.follows :
    ∀ r ∈ row :: rest, Follows o row.left r.left ∧ Follows o row.right r.right := by
  refine forall_mem_cons.mpr ⟨?_, fun r hr => ⟨hm.left r hr, hm.right r hr⟩⟩
  have hmem : last ∈ rest := mem_of_getLast? hm.last_eq
  have hl := hm.left last hmem
  have hr := hm.right last hmem
  exact ⟨⟨rfl, fun j hj hjo => ⟨rfl, rfl, (hl.dim_eq j hj hjo).2.2.2, (hl.dim_eq j hj hjo).2.2.2⟩⟩,
    ⟨rfl, fun j hj hjo => ⟨rfl, rfl, (hr.dim_eq j hj hjo).2.2.2, (hr.dim_eq j hj hjo).2.2.2⟩⟩⟩

theorem Matched.base_eq (hn : n < row.right.dims.length) {extent extent' : Nat} (hl : (row.left.dim n).Ok extent)
    (hr : (row.right.dim n).Ok extent') (hle : (row.right.dim n).size ≤ coord outerShape n) :
    row.right.base n = row.left.base n + (coord outerShape n - (row.right.dim n).size) := by
  have hstride := ((hm.follows row mem_cons_self).2.dim_eq n hn hm.ne.symm).2.2.1
  have hsize := SliceDim.size_of_unit hstride
  have htotal := hm.size_eq
  obtain ⟨hl₀, -, -, -⟩ := hl
  obtain ⟨hr₀, hr₁, -, -⟩ := hr
  rw [SliceOp.base, SliceOp.base]
  omega

theorem Matched.eval_row (hy : original env operands o = some y) {r : Row} (hr : r ∈ row :: rest) : ∃ l s,
      r.left.eval env = some l ∧ r.right.eval env = some s ∧ n < y.shape.length ∧
        r.left.dims.length = y.shape.length ∧ r.right.dims.length = y.shape.length ∧
          ∀ d, d ≠ o → d ≠ n → coord l.shape d = coord y.shape d := by
  obtain ⟨-, heval⟩ := eval_operands hy
  have hmem : .concatenate (r.op n) ∈ operands := by
    rw [hm.operands_eq]
    exact mem_map_of_mem hr
  obtain ⟨hn, l, hl, hlrank, hlcoord⟩ := heval _ hmem (.slice r.left) mem_cons_self
  obtain ⟨-, s, hs, hsrank, -⟩ := heval _ hmem (.slice r.right)
    (mem_cons_of_mem _ (mem_append_right _ mem_cons_self))
  have hlshape := congrArg length (eval_slice hl).2.1
  have hsshape := congrArg length (eval_slice hs).2.1
  rw [length_map] at hlshape hsshape
  exact ⟨l, s, hl, hs, hn, hlshape.symm.trans hlrank, hsshape.symm.trans hsrank, hlcoord⟩

end

end

/-- The elements of the concatenation: of the tensor that is sliced on the left and on the right, and of what
is in the middle. -/
structure Laid (o n : Nat) (base : Nat → Nat) (x : Tensor α) (lefts rights : List SliceDim) (a b : Nat)
    (mid y : Tensor α) : Prop where
  lt_o : o < y.shape.length
  lt_n : n < y.shape.length
  le : a + b ≤ coord y.shape n
  mid_shape : mid.shape = y.shape.set n (coord y.shape n - (a + b))
  lefts_length : (positions lefts).length = coord y.shape o
  rights_length : (positions rights).length = coord y.shape o
  read_eq : ∀ c, Within y.shape c → y.read c =
    if c n < a then x.read (taken o (shifted base) ((positions lefts).getD (c o) 0) c)
    else if c n < coord y.shape n - b then mid.read (Function.update c n (c n - a))
    else x.read (taken o (shifted base) ((positions rights).getD (c o) 0) c)

theorem length_positions_of_concatenate {ss : List (Tensor α)} (h : Forall₂ (TakenAlong o (shifted base) x) dims ss)
    (hy : concatenate o ss = some y) : (positions dims).length = coord y.shape o := by
  rw [coord_concatenate hy, length_positions, total]
  clear hy
  induction h with
  | nil => rfl
  | cons ht _ ih => rw [map_cons, map_cons, sum_cons, sum_cons, ht.size_eq, ih]

theorem allSome_of_forall₂ {γ δ : Type} {f : β → Option γ} {g : δ → γ} {ds : List δ}
    (h : Forall₂ (fun b d => f b = some (g d)) bs ds) : allSome (bs.map f) = some (ds.map g) := by
  induction h with
  | nil => rfl
  | cons hbd _ ih => rw [map_cons, hbd, allSome, ih, map_some, map_cons]

theorem rowParts_taken {row r : Row} {p : RowTensors α} (hp : RowParts env n r p) (hon : o ≠ n)
    (hl : Follows o row.left r.left) (hr : Follows o row.right r.right)
    (hll : row.left.dims.length = (env row.left.operand).shape.length)
    (hrl : row.right.dims.length = (env row.right.operand).shape.length) (hol : o < row.left.dims.length)
    (hor : o < row.right.dims.length) (hnl : n < row.left.dims.length) (hnr : n < row.right.dims.length) :
    TakenAlong o (shifted row.left.base) (env row.left.operand) (r.left.dim o) p.x ∧
      TakenAlong o (shifted row.right.base) (env row.right.operand) (r.right.dim o) p.y ∧
        coord p.x.shape n = (row.left.dim n).size ∧ coord p.y.shape n = (row.right.dim n).size := by
  obtain ⟨l, hleval, hlsame⟩ := hp.left
  obtain ⟨s, hreval, hrsame⟩ := hp.right
  have hlrank : row.left.dims.length = r.left.dims.length := by
    rw [hll, ← hl.operand_eq, ← (eval_slice hleval).1]
  have hrrank : row.right.dims.length = r.right.dims.length := by
    rw [hrl, ← hr.operand_eq, ← (eval_slice hreval).1]
  refine ⟨(takenAlong_of_follows hleval (hlrank ▸ hol) hlrank hl).of_same hlsame,
    (takenAlong_of_follows hreval (hrrank ▸ hor) hrrank hr).of_same hrsame, ?_, ?_⟩
  · rw [hlsame.shape_eq, coord_eval hleval (hlrank ▸ hnl), hl.size_eq hnl hon.symm]
  · rw [hrsame.shape_eq, coord_eval hreval (hrrank ▸ hnr), hr.size_eq hnr hon.symm]

theorem exists_laid {operands : List OuterOperand} {row last : Row} {rest : List Row} {ops : NewOps}
    (hm : Matched y.shape operands o n row rest last ops) (hmid : row.middle ≠ [])
    (hy : original env operands o = some y) :
    ∃ mid, ops.newOuter env o = some mid ∧
      Laid o n row.left.base (env row.left.operand) ((row :: rest).map fun r => r.left.dim o)
        ((row :: rest).map fun r => r.right.dim o) (row.left.dim n).size (row.right.dim n).size mid y := by
  obtain ⟨zs, hzs, hcat⟩ := bind_eq_some_iff.mp hy
  rw [hm.operands_eq, allSome_eq_some_iff, List.map_map] at hzs
  have hne : ∀ r ∈ row :: rest, r.middle ≠ [] := by
    intro r hr hnil
    have hlen := hm.middle_length r hr
    rw [hnil] at hlen
    exact hmid (eq_nil_of_length_eq_zero hlen.symm)
  obtain ⟨ps, hps, rfl⟩ := exists_rowsParts hne hzs
  have hall := (forall₂_and_left _ _).mpr ⟨hm.follows, hps⟩
  obtain ⟨ho, -, hfits, -⟩ := pieces_of_concatenate hcat
  obtain ⟨l, s, hl, hs, hn, hly, hry, -⟩ := hm.eval_row hy mem_cons_self
  obtain ⟨hlx, -, hlok, -⟩ := eval_slice hl
  obtain ⟨hrx, -, hrok, -⟩ := eval_slice hs
  have htaken := hall.imp fun r p ⟨⟨hl, hr⟩, hp⟩ => rowParts_taken hp hm.ne hl hr hlx hrx (hly ▸ ho)
    (hry ▸ ho) (hly ▸ hn) (hry ▸ hn)
  have hlefts := forall₂_map_left_iff.mpr (forall₂_map_right_iff.mpr (htaken.imp fun r p h => h.1))
  have hrights := forall₂_map_left_iff.mpr (forall₂_map_right_iff.mpr (htaken.imp fun r p h => h.2.1))
  have hsizes : ∀ p ∈ ps, coord p.x.shape n = (row.left.dim n).size ∧
      coord p.y.shape n = (row.right.dim n).size := fun p hp =>
    (exists_of_forall₂ htaken p hp).elim fun _ h => h.2.2
  obtain ⟨L, W, Mid, R, hparts, hLa, hRb⟩ := exists_parts hps hm.ne (fun p hp => (hsizes p hp).1)
    (fun p hp => (hsizes p hp).2) hcat
  have hnew : ops.newOuter env o = some Mid := by
    have hmiddle := allSome_of_forall₂ (hps.imp fun r p h => h.middle_eq)
    rw [NewOps.newOuter, hm.ops_eq, List.map_map]
    change (allSome ((row :: rest).map fun r => (ConcatenateOp.mk r.middle n).eval env)).bind _ = _
    rw [hmiddle]
    exact hparts.middle
  have houter := hparts.outer
  have hinner := hparts.inner
  rw [hLa] at houter
  have hW : coord W.shape n = coord y.shape n - (row.left.dim n).size := by
    rw [houter.right_shape, coord_set_self hn]
  have hM : coord Mid.shape n = coord y.shape n - ((row.left.dim n).size + (row.right.dim n).size) := by
    have hR := hRb
    rw [hinner.right_shape, coord_set_self hinner.lt] at hR
    have hle := hinner.le
    omega
  have hle : (row.left.dim n).size + (row.right.dim n).size ≤ coord y.shape n := by
    have hR := hRb
    rw [hinner.right_shape, coord_set_self hinner.lt] at hR
    have hle := hinner.le
    have hle' := houter.le
    omega
  refine ⟨Mid, hnew, ho, hn, hle, ?_, ?_, ?_, fun c hc => ?_⟩
  · rw [hinner.left_shape, hM, houter.right_shape, set_set]
  · rw [length_positions_of_concatenate hlefts hparts.left, houter.left_size hm.ne]
  · rw [length_positions_of_concatenate hrights hparts.right, hinner.right_size hm.ne, houter.right_size hm.ne]
  · rw [houter.read_eq c hc]
    split
    · rename_i hlt
      exact read_concatenate_taken hlefts hparts.left (houter.within_left hc hlt)
    · rename_i hge
      have hcw := houter.within_right hc hge
      rw [hinner.read_eq _ hcw, update_self]
      by_cases hmiddle : c n < coord y.shape n - (row.right.dim n).size
      · rw [if_pos hmiddle, if_pos (by omega)]
      · have hge' : ¬c n - (row.left.dim n).size < coord Mid.shape n := by omega
        have hge'' : ¬Function.update c n (c n - (row.left.dim n).size) n < coord Mid.shape n := by
          rwa [update_self]
        have hcr := hinner.within_right hcw hge''
        rw [update_self] at hcr
        rw [if_neg hmiddle, if_neg hge', read_concatenate_taken hrights hparts.right hcr, hm.operand_eq,
          update_idem, update_of_ne hm.ne]
        refine read_congr _ fun d hd => ?_
        rw [taken, taken]
        split
        · rfl
        · rename_i hdo
          by_cases hdn : d = n
          · rw [hdn, update_self, shifted, shifted, hm.base_eq (hry ▸ hn) (hlok n (hly ▸ hn)) (hrok n (hry ▸ hn))
              (by omega)]
            omega
          · rw [update_of_ne hdn, shifted, shifted, SliceOp.base, SliceOp.base, (hm.dims_eq d (hlx ▸ hd) hdn).1]

/-! ### The new ops -/

theorem start_le_limit {s last : SliceOp} {ss : List SliceOp} (hchain : (s :: ss).IsChain (Adjacent o))
    (hle : ∀ t ∈ s :: ss, (t.dim o).start ≤ (t.dim o).limit) (hlast : (s :: ss).getLast? = some last) :
    (s.dim o).start ≤ (last.dim o).limit := by
  induction ss generalizing s with
  | nil =>
    cases hlast
    exact hle s mem_cons_self
  | cons s' ss ih =>
    obtain ⟨hadjacent, hchain⟩ := isChain_cons_cons.mp hchain
    have hrest := ih hchain (fun t ht => hle t (mem_cons_of_mem _ ht))
      (by rwa [getLast?_cons_cons] at hlast)
    rw [Adjacent] at hadjacent
    have hs := hle s mem_cons_self
    omega

theorem Matched.right_le {outerShape : List Nat} {operands : List OuterOperand} {row last : Row} {rest : List Row}
    {ops : NewOps} (hm : Matched outerShape operands o n row rest last ops) (hy : original env operands o = some y) :
    (row.right.dim o).start ≤ (last.right.dim o).limit := by
  have ho := (eval_operands hy).1
  refine start_le_limit hm.chain (fun t ht => ?_) ?_
  · obtain ⟨r, hr, rfl⟩ := mem_map.mp (show t ∈ (row :: rest).map Row.right from ht)
    obtain ⟨-, s, -, hs, -, -, hrank, -⟩ := hm.eval_row hy hr
    exact ((eval_slice hs).2.2.1 o (hrank.symm ▸ ho)).2.1
  · change ((row :: rest).map Row.right).getLast? = _
    rw [getLast?_map, getLast?_cons, hm.last_eq]
    rfl

theorem exists_newSlice {operands : List OuterOperand} {row last : Row} {rest : List Row} {ops : NewOps}
    (hm : Matched y.shape operands o n row rest last ops) (hy : original env operands o = some y) :
    ∃ w, ops.newSlice.eval env = some w ∧ w.shape = y.shape.set o (ops.newSlice.dim o).size ∧
      ∀ c, Within w.shape c → w.read c =
        (env row.left.operand).read (taken o (shifted row.left.base) ((ops.newSlice.dim o).source (c o)) c) := by
  have hlast : last ∈ row :: rest := mem_cons_of_mem _ (mem_of_getLast? hm.last_eq)
  obtain ⟨l, s, hl, hs, hn, hly, hry, hlcoord⟩ := hm.eval_row hy mem_cons_self
  obtain ⟨-, s', -, hs', -, -, hry', -⟩ := hm.eval_row hy hlast
  have ho := (eval_operands hy).1
  obtain ⟨hlx, hlshape, hlok, -⟩ := eval_slice hl
  obtain ⟨hrx, -, hrok, -⟩ := eval_slice hs
  obtain ⟨hrx', -, hrok', -⟩ := eval_slice hs'
  obtain ⟨hfollowsl, hfollowsr⟩ := hm.follows row mem_cons_self
  obtain ⟨-, hfollows⟩ := hm.follows last hlast
  have hops : ops.newSlice = sliceTo row.left last.right := by rw [hm.ops_eq]
  have hdim : ∀ j < y.shape.length, ops.newSlice.dim j = ⟨(row.left.dim j).start,
      (last.right.dim j).limit, (row.left.dim j).stride⟩ := by
    intro j hj
    rw [hops, dim_sliceTo (hly ▸ hj) (hry' ▸ hj)]
  have hlen : ops.newSlice.dims.length = y.shape.length := by
    rw [hops, sliceTo, length_zipWith]
    omega
  have hoperand : ops.newSlice.operand = row.left.operand := by rw [hops, sliceTo]
  have hlastOperand : env last.right.operand = env row.left.operand := by
    rw [hfollows.operand_eq, hm.operand_eq]
  -- in the other dimensions it is the first slice, and from there to the end of the last one in `n`
  have hother : ∀ j < y.shape.length, j ≠ o → j ≠ n → ops.newSlice.dim j = row.left.dim j := by
    intro j hj hjo hjn
    have hlimit := (hfollows.dim_eq j (hry ▸ hj) hjo).2.1
    have heq := (hm.dims_eq j (hly ▸ hj) hjn).2
    rw [hdim j hj, hlimit, ← heq]
  have hunit : ∀ j < y.shape.length, j ≠ o → (ops.newSlice.dim j).stride = 1 := by
    intro j hj hjo
    rw [hdim j hj]
    exact (hfollowsl.dim_eq j (hly ▸ hj) hjo).2.2.1
  have hlimitn : (ops.newSlice.dim n).limit = (row.right.dim n).limit := by
    rw [hdim n hn]
    exact (hfollows.dim_eq n (hry ▸ hn) hm.ne.symm).2.1
  have hok : ∀ j < ops.newSlice.dims.length, (ops.newSlice.dim j).Ok (coord (env ops.newSlice.operand).shape j) := by
    intro j hj
    rw [hlen] at hj
    rw [hoperand]
    have hatl := hlok j (hly ▸ hj)
    have hatr := hrok' j (hry' ▸ hj)
    rw [hlastOperand] at hatr
    obtain ⟨hl₀, hl₁, hl₂, hl₃⟩ := hatl
    obtain ⟨-, -, hr₂, -⟩ := hatr
    refine ⟨?_, ?_, ?_, ?_⟩
    · rw [hdim j hj]
      exact hl₀
    · by_cases hjo : j = o
      · rw [hdim j hj, hjo, (hm.dims_eq o (hly ▸ ho) hm.ne).1]
        exact hm.right_le hy
      · by_cases hjn : j = n
        · rw [hjn, hlimitn, hdim n hn]
          have hsize := hm.size_eq
          change (row.left.dim n).start ≤ _
          omega
        · rw [hother j hj hjo hjn]
          exact hl₁
    · rw [hdim j hj]
      exact hr₂
    · rw [hdim j hj]
      exact hl₃
  rw [← hoperand] at hlx
  obtain ⟨w, hw⟩ := eval_slice_of_ok (hlen.trans (hly.symm.trans hlx)) hok
  obtain ⟨-, hshape, -, hread⟩ := eval_slice hw
  refine ⟨w, hw, ?_, fun c hc => ?_⟩
  · refine ext_getElem (by rw [hshape, length_map, hlen, length_set]) fun j hj hj' => ?_
    rw [length_set] at hj'
    rw [← coord_eq_getElem, ← coord_eq_getElem, coord_eval hw (hlen.symm ▸ hj')]
    by_cases hjo : j = o
    · rw [hjo, coord_set_self ho]
    · rw [coord_set_of_ne hjo]
      by_cases hjn : j = n
      · have hsize := hm.size_eq
        rw [hjn, SliceDim.size_of_unit (hunit n hn hm.ne.symm), hlimitn, hdim n hn]
        change ((row.right.dim n).limit - (row.left.dim n).start).toNat = _
        omega
      · rw [hother j hj' hjo hjn, ← coord_eval hl (hly ▸ hj'), hlcoord j hjo hjn]
  · rw [hread c hc, hoperand]
    refine read_congr _ fun d hd => ?_
    have hd' : d < y.shape.length := by rwa [← hlen, hlen.trans hly.symm, hlx, hoperand]
    rw [taken]
    split
    · rename_i hdo
      rw [hdo]
    · rename_i hdo
      rw [SliceDim.source_of_unit (hunit d hd' hdo) (hok d (hlen.symm ▸ hd')).1, hdim d hd']
      rfl

theorem allSome_shapes {f g : β → Option (Tensor α)} {ts : List (Tensor α)}
    (h : ∀ b ∈ bs, ∀ t, f b = some t → ∃ t', g b = some t' ∧ t'.shape = t.shape) (hts : allSome (bs.map f) = some ts) :
    ∃ ts', allSome (bs.map g) = some ts' ∧ ts'.map Tensor.shape = ts.map Tensor.shape := by
  rw [allSome_eq_some_iff] at hts
  induction bs generalizing ts with
  | nil => exact ⟨[], rfl, by rw [map_eq_nil_iff.mp hts.symm]⟩
  | cons b bs ih =>
    obtain ⟨t, ts, rfl, ht, hts⟩ := map_eq_cons_iff.mp hts.symm
    obtain ⟨t', ht', hshape⟩ := h b mem_cons_self t ht.symm
    obtain ⟨ts', hts', hshapes⟩ := ih (fun b hb => h b (mem_cons_of_mem _ hb)) hts.symm
    exact ⟨t' :: ts', by rw [map_cons, ht', allSome, hts', map_some], by rw [map_cons, map_cons, hshape, hshapes]⟩

theorem original_of_shapes {env' : Nat → Tensor α} {operands : List OuterOperand}
    (henv : ∀ v, (env' v).shape = (env v).shape) (hy : original env operands o = some y) :
    ∃ y', original env' operands o = some y' ∧ y'.shape = y.shape := by
  have hoperand : ∀ (operand : Operand) (t : Tensor α), operand.eval env = some t →
      ∃ t', operand.eval env' = some t' ∧ t'.shape = t.shape := by
    rintro (op | v) t ht
    · exact slice_of_shape ht (henv op.operand)
    · cases ht
      exact ⟨env' v, rfl, henv v⟩
  have houter : ∀ (operand : OuterOperand) (t : Tensor α), operand.eval env = some t →
      ∃ t', operand.eval env' = some t' ∧ t'.shape = t.shape := by
    rintro (op | v) t ht
    · obtain ⟨ts, hts, hcat⟩ := bind_eq_some_iff.mp ht
      obtain ⟨ts', hts', hshapes⟩ := allSome_shapes (fun operand _ => hoperand operand) hts
      obtain ⟨t', ht', hshape⟩ := concatenate_of_shapes hcat hshapes
      exact ⟨t', bind_eq_some_iff.mpr ⟨ts', hts', ht'⟩, hshape⟩
    · cases ht
      exact ⟨env' v, rfl, henv v⟩
  obtain ⟨ts, hts, hcat⟩ := bind_eq_some_iff.mp hy
  obtain ⟨ts', hts', hshapes⟩ := allSome_shapes (fun operand _ => houter operand) hts
  obtain ⟨y', hy', hshape⟩ := concatenate_of_shapes hcat hshapes
  exact ⟨y', bind_eq_some_iff.mpr ⟨ts', hts', hy'⟩, hshape⟩

theorem read_update {rank size : Nat} {y : Tensor α} {lefts rights : List SliceDim} {a b : Nat}
    (hlaid : Laid o n base x lefts rights a b mid y) (hon : o ≠ n)
    (hstarts : starts = (replicate rank 0).set o (size : Int)) (hrank : rank = y.shape.length)
    (hw : w.shape = y.shape) :
    ∃ z, dynamicUpdateSlice starts mid w = some z ∧ z.shape = y.shape ∧ ∀ c, Within y.shape c →
      z.read c = if c n < coord y.shape n - (a + b) then mid.read c else w.read c := by
  have hmid : ∀ d, d ≠ n → coord mid.shape d = coord y.shape d := fun d hdn => by
    rw [hlaid.mid_shape, coord_set_of_ne hdn]
  have hmidn : coord mid.shape n = coord y.shape n - (a + b) := by
    rw [hlaid.mid_shape, coord_set_self hlaid.lt_n]
  have hlen : mid.shape.length = y.shape.length := by rw [hlaid.mid_shape, length_set]
  have hok : DynamicSliceOk w.shape mid.shape starts.length := by
    rw [hw]
    refine ⟨by rw [hstarts, length_set, length_replicate, hrank], forall₂_iff_get.mpr ⟨hlen, fun d hd hd' => ?_⟩⟩
    rw [get_eq_getElem, get_eq_getElem, ← coord_eq_getElem, ← coord_eq_getElem]
    change coord mid.shape d ≤ coord y.shape d
    by_cases hdn : d = n
    · rw [hdn, hmidn]
      omega
    · rw [hmid d hdn]
  obtain ⟨z, hz⟩ : ∃ z, dynamicUpdateSlice starts mid w = some z := ⟨_, if_pos hok⟩
  obtain ⟨-, hzshape, hread⟩ := read_dynamicUpdateSlice hz
  rw [hw] at hzshape hread
  have hstart : ∀ d, updateStart y.shape mid.shape starts d = 0 := by
    intro d
    rw [updateStart]
    by_cases hdo : d = o
    · rw [hdo, hmid o hon, clampStart]
      omega
    · have hzero : starts.getD d 0 = 0 := by
        rw [hstarts, getD_eq_getElem?_getD, getElem?_set_ne (Ne.symm hdo), getElem?_replicate]
        split
        · rfl
        · rfl
      rw [hzero, clampStart]
      omega
  refine ⟨z, hz, hzshape, fun c hc => ?_⟩
  obtain ⟨hin, hout⟩ := hread c hc
  simp only [hstart, zero_le, true_and, zero_add, Nat.sub_zero] at hin hout
  have hregion : (∀ d < y.shape.length, c d < coord mid.shape d) ↔ c n < coord y.shape n - (a + b) := by
    constructor
    · intro h
      rw [← hmidn]
      exact h n hlaid.lt_n
    · intro h d hd
      by_cases hdn : d = n
      · rwa [hdn, hmidn]
      · rw [hmid d hdn]
        exact hc d hd
  rw [hregion] at hin hout
  split
  · rename_i hlt
    exact hin hlt
  · rename_i hge
    exact hout hge

/-! ### What is preserved -/

/-- There is something in the middle, the positions of the one slice are those of the slices that are used, and the
update covers what is in the middle. -/
def UpdateHolds (outerShape : List Nat) (o n : Nat) (row : Row) (rest : List Row) (ops : NewOps) : Prop :=
  row.middle ≠ [] ∧ (ops.newSlice.dim o).size = coord outerShape o ∧ (0 ∈ outerShape ∨
      ((row.left.dim n).size = 0 ∨ (row.left.dim n).size + (row.right.dim n).size = coord outerShape n) ∧
      ((row.left.dim n).size ≠ 0 →
        positions ((row :: rest).map fun r => r.left.dim o) = positions [ops.newSlice.dim o]) ∧
      ((row.right.dim n).size ≠ 0 →
        positions ((row :: rest).map fun r => r.right.dim o) = positions [ops.newSlice.dim o]))

section

variable {operands : List OuterOperand} {row last : Row} {rest : List Row} {ops : NewOps} {y z : Tensor α}

theorem getD_positions (dim : SliceDim) {k : Nat} (hk : k < dim.size) : (positions [dim]).getD k 0 = dim.source k := by
  rw [positions_cons, getD_eq_getElem?_getD, getElem?_append_left (by simpa using hk), getElem?_map, getElem?_range hk]
  rfl

theorem eval_newOps (hmid : ops.newOuter env o = some mid) (hw : ops.newSlice.eval env = some w) :
    ops.eval env o = dynamicUpdateSlice ops.starts mid w := by
  rw [NewOps.eval, hmid]
  change (ops.newSlice.eval env).bind _ = _
  rw [hw]
  rfl

variable {shape : List Nat} {c : Nat → Nat}

theorem not_within_of_zero (hzero : 0 ∈ shape) : ¬Within shape c := by
  intro hc
  obtain ⟨d, hd, heq⟩ := getElem_of_mem hzero
  have hlt := hc d hd
  rw [coord_eq_getElem hd, heq] at hlt
  exact Nat.not_lt_zero _ hlt

theorem preserved_of_updateHolds (hm : Matched y.shape operands o n row rest last ops)
    (hy : original env operands o = some y) (h : UpdateHolds y.shape o n row rest ops) :
    ∃ z, ops.eval env o = some z ∧ Same z y := by
  obtain ⟨hmiddle, hsize, h⟩ := h
  obtain ⟨mid, hmid, hlaid⟩ := exists_laid hm hmiddle hy
  obtain ⟨w, hw, hwshape, hwread⟩ := exists_newSlice hm hy
  obtain ⟨l, -, hl, -, -, hrank, -⟩ := hm.eval_row hy mem_cons_self
  rw [hsize, set_coord_self hlaid.lt_o] at hwshape
  have hstarts : ops.starts = (replicate row.left.dims.length 0).set o ((row.left.dim o).size : Int) := by
    rw [hm.ops_eq]
  obtain ⟨z, hz, hzshape, hzread⟩ := read_update hlaid hm.ne hstarts hrank hwshape
  rw [← eval_newOps hmid hw] at hz
  refine ⟨z, hz, same_of_read hzshape fun c hc => ?_⟩
  rw [hzshape] at hc
  have hco := hc o hlaid.lt_o
  have hcn := hc n hlaid.lt_n
  rcases h with hempty | ⟨hstart, hlefts, hrights⟩
  · exact (not_within_of_zero hempty hc).elim
  have hle := hlaid.le
  have hsrc := getD_positions (ops.newSlice.dim o) (hsize.symm ▸ hco)
  rw [hzread c hc, hlaid.read_eq c hc, hwread c (hwshape ▸ hc)]
  by_cases hleft : c n < (row.left.dim n).size
  · have hne : (row.left.dim n).size ≠ 0 := by omega
    rw [if_pos hleft, if_neg (by omega), hlefts hne, hsrc]
  · rw [if_neg hleft]
    by_cases hright : c n < coord y.shape n - (row.right.dim n).size
    · have hzero : (row.left.dim n).size = 0 := by omega
      rw [if_pos hright, if_pos (by omega), hzero, Nat.sub_zero, update_eq_self]
    · have hne : (row.right.dim n).size ≠ 0 := by omega
      rw [if_neg hright, if_neg (by omega), hrights hne, hsrc]

theorem middle_ne_of_eval (hm : Matched y.shape operands o n row rest last ops) (hz : ops.eval env o = some z) :
    row.middle ≠ [] := by
  rintro hnil
  obtain ⟨mid, hmid, -⟩ := bind_eq_some_iff.mp hz
  rw [NewOps.newOuter, hm.ops_eq] at hmid
  obtain ⟨ts, hts, -⟩ := bind_eq_some_iff.mp hmid
  have hmap := allSome_eq_some_iff.mp hts
  obtain ⟨t, -, -, ht, -⟩ := map_eq_cons_iff.mp hmap.symm
  change some t = (ConcatenateOp.mk row.middle n).eval env at ht
  rw [hnil] at ht
  cases ht

theorem shape_of_dynamicUpdateSlice {u z : Tensor α} (h : dynamicUpdateSlice starts u x = some z) :
    z.shape = x.shape := (read_dynamicUpdateSlice h).2.1

/-- The elements of both, where they are the same. -/
structure Both (env : Nat → Tensor α) (o n : Nat) (row : Row) (rest : List Row) (ops : NewOps)
    (mid y : Tensor α) : Prop where
  laid : Laid o n row.left.base (env row.left.operand) ((row :: rest).map fun r => r.left.dim o)
    ((row :: rest).map fun r => r.right.dim o) (row.left.dim n).size (row.right.dim n).size mid y
  size_eq : (ops.newSlice.dim o).size = coord y.shape o
  read_eq : ∀ c, Within y.shape c → y.read c =
    if c n < coord y.shape n - ((row.left.dim n).size + (row.right.dim n).size) then mid.read c
    else (env row.left.operand).read (taken o (shifted row.left.base) ((ops.newSlice.dim o).source (c o)) c)

section

variable (hm : Matched y.shape operands o n row rest last ops) (hy : original env operands o = some y)

include hm hy

theorem exists_both (h : ∃ z, ops.eval env o = some z ∧ Same z y) :
    row.middle ≠ [] ∧ ∃ mid, Both env o n row rest ops mid y := by
  obtain ⟨z, hz, hsame⟩ := h
  have hmiddle := middle_ne_of_eval hm hz
  obtain ⟨mid, hmid, hlaid⟩ := exists_laid hm hmiddle hy
  obtain ⟨w, hw, hwshape, hwread⟩ := exists_newSlice hm hy
  obtain ⟨l, -, hl, -, -, hrank, -⟩ := hm.eval_row hy mem_cons_self
  rw [eval_newOps hmid hw] at hz
  have hshape : w.shape = y.shape := (shape_of_dynamicUpdateSlice hz).symm.trans hsame.shape_eq
  have hsize : (ops.newSlice.dim o).size = coord y.shape o := by
    rw [← hshape, hwshape, coord_set_self hlaid.lt_o]
  have hstarts : ops.starts = (replicate row.left.dims.length 0).set o ((row.left.dim o).size : Int) := by
    rw [hm.ops_eq]
  obtain ⟨z', hz', hzshape, hzread⟩ := read_update hlaid hm.ne hstarts hrank hshape
  cases hz.symm.trans hz'
  refine ⟨hmiddle, mid, hlaid, hsize, fun c hc => ?_⟩
  rw [← hsame.read_eq (hzshape ▸ hc), hzread c hc, hwread c (hshape ▸ hc)]

/-- The tensor that is sliced may have any elements. -/
theorem both_of_preserves (h : Preserves α (fun v => (env v).shape) operands o ops) (f : List Nat → α) :
    ∃ env' mid y', env' row.left.operand = ⟨(env row.left.operand).shape, f⟩ ∧ y'.shape = y.shape ∧
      Both env' o n row rest ops mid y' := by
  have henv : ∀ v, (update env row.left.operand ⟨(env row.left.operand).shape, f⟩ v).shape = (env v).shape := by
    intro v
    by_cases hv : v = row.left.operand
    · rw [hv, update_self]
    · rw [update_of_ne hv]
  obtain ⟨y', hy', hshape⟩ := original_of_shapes henv hy
  have hm' := hm
  rw [← hshape] at hm'
  obtain ⟨-, mid, hboth⟩ := exists_both hm' hy' (h _ y' henv hy')
  exact ⟨_, mid, y', update_self _ _ _, hshape, hboth⟩

end

theorem positions_eq [Nontrivial α] {dim : SliceDim} (base : Nat → Nat) (ho : o < shape.length)
    (hlen : (positions dims).length = dim.size) (h : ∀ f : List Nat → α, ∀ k < dim.size, ∃ c : Nat → Nat,
      (Tensor.mk shape f).read (taken o (shifted base) ((positions dims).getD k 0) c) =
        (Tensor.mk shape f).read (taken o (shifted base) (dim.source k) c)) : positions dims = positions [dim] := by
  obtain ⟨P, Q, hPQ⟩ := exists_pair_ne α
  have hlen' : (positions [dim]).length = dim.size := by simp [length_positions]
  refine ext_getElem (hlen.trans hlen'.symm) fun k hk hk' => ?_
  have hkd : k < dim.size := hlen ▸ hk
  obtain ⟨c, hc⟩ := h (fun idx => if coord idx o = (positions dims).getD k 0 then Q else P) k hkd
  rw [read_mark ho (fun i => if i = (positions dims).getD k 0 then Q else P),
    read_mark ho (fun i => if i = (positions dims).getD k 0 then Q else P), taken, taken, if_pos rfl,
    if_pos rfl, if_pos rfl] at hc
  have hsrc : dim.source k = (positions dims).getD k 0 := by
    by_contra hne
    rw [if_neg hne] at hc
    exact hPQ hc.symm
  rw [← getD_eq_getElem _ 0 hk, ← getD_eq_getElem _ 0 hk', getD_positions dim hkd, hsrc]

theorem within_single (hpos : 0 ∉ shape) (hc : ∀ d < shape.length, c d ≠ 0 → c d < coord shape d) : Within shape c := by
  intro d hd
  by_cases hzero : c d = 0
  · rw [hzero]
    refine pos_of_ne_zero fun h => hpos ?_
    rw [← h, coord_eq_getElem hd]
    exact getElem_mem _
  · exact hc d hd hzero

section

variable [Nontrivial α] (hm : Matched y.shape operands o n row rest last ops)
  (hy : original env operands o = some y) (h : Preserves α (fun v => (env v).shape) operands o ops)

include hm hy h

/-- If there are slices on the left and something in the middle, the last of the middle would have to be an
element of the tensor that it is not. -/
theorem start_of_preserves (hpos : 0 ∉ y.shape) : (row.left.dim n).size = 0 ∨
      (row.left.dim n).size + (row.right.dim n).size = coord y.shape n := by
  by_contra hnot
  obtain ⟨hleft, hmiddle⟩ := not_or.mp hnot
  obtain ⟨P, Q, hPQ⟩ := exists_pair_ne α
  have hrank : n < (env row.left.operand).shape.length := by
    obtain ⟨l, -, hl, -, hn, hly, -⟩ := hm.eval_row hy mem_cons_self
    rw [← (eval_slice hl).1, hly]
    exact hn
  obtain ⟨env', mid, y', henv, hshape, hboth⟩ := both_of_preserves hm hy h fun idx =>
    if row.left.base n + (coord y.shape n - ((row.left.dim n).size + (row.right.dim n).size)) ≤
      coord idx n then Q else P
  have hlaid := hboth.laid
  have hle := hlaid.le
  have hn := hlaid.lt_n
  have hread := hlaid.read_eq
  have hread' := hboth.read_eq
  rw [henv, hshape] at hread hread'
  rw [hshape] at hle hn
  have hmark : ∀ k c, (Tensor.mk (env row.left.operand).shape fun idx => if row.left.base n +
      (coord y.shape n - ((row.left.dim n).size + (row.right.dim n).size)) ≤ coord idx n then Q
        else P).read (taken o (shifted row.left.base) k c) =
      if coord y.shape n - ((row.left.dim n).size + (row.right.dim n).size) ≤ c n then Q else P := by
    intro k c
    rw [read_mark hrank fun i => if row.left.base n +
      (coord y.shape n - ((row.left.dim n).size + (row.right.dim n).size)) ≤ i then Q else P, taken,
      if_neg hm.ne.symm, shifted]
    exact if_congr (Nat.add_le_add_iff_left) rfl rfl
  have hc : ∀ p < coord y.shape n, Within y.shape (update (fun _ => 0) n p) := by
    intro p hp
    refine within_single hpos fun d hd hne => ?_
    by_cases hdn : d = n
    · rwa [hdn, update_self]
    · rw [update_of_ne hdn] at hne
      exact absurd rfl hne
  have hmid : ∀ p < coord y.shape n - ((row.left.dim n).size + (row.right.dim n).size),
      mid.read (update (fun _ => 0) n p) = P := by
    intro p
    induction p using Nat.strong_induction_on with
    | _ p ih =>
      intro hp
      have hat := hread _ (hc p (by omega))
      rw [hread' _ (hc p (by omega)), update_self, if_pos hp] at hat
      rw [hat]
      by_cases hpa : p < (row.left.dim n).size
      · rw [if_pos hpa, hmark, update_self, if_neg (by omega)]
      · rw [if_neg hpa, if_pos (by omega), update_idem]
        exact ih _ (by omega) (by omega)
  have hp : coord y.shape n - (row.right.dim n).size - 1 < coord y.shape n := by omega
  have hat := hread _ (hc _ hp)
  rw [hread' _ (hc _ hp), update_self, if_neg (by omega), hmark, update_self,
    if_pos (by omega), if_neg (by omega), if_pos (by omega), update_idem, hmid _ (by omega)] at hat
  exact hPQ hat.symm

theorem updateHolds_of_preserves : UpdateHolds y.shape o n row rest ops := by
  obtain ⟨hmiddle, mid, hboth⟩ := exists_both hm hy (h env y (fun _ => rfl) hy)
  refine ⟨hmiddle, hboth.size_eq, ?_⟩
  by_cases hpos : 0 ∈ y.shape
  · exact .inl hpos
  have hstart := start_of_preserves hm hy h hpos
  have hrank : o < (env row.left.operand).shape.length := by
    obtain ⟨l, -, hl, -, -, hly, -⟩ := hm.eval_row hy mem_cons_self
    rw [← (eval_slice hl).1, hly]
    exact hboth.laid.lt_o
  have hle := hboth.laid.le
  have hwithin : ∀ k < coord y.shape o, ∀ p < coord y.shape n,
      Within y.shape (update (update (fun _ => 0) n p) o k) := by
    intro k hk p hp
    refine within_single hpos fun d hd hne => ?_
    by_cases hdo : d = o
    · rwa [hdo, update_self]
    · rw [update_of_ne hdo] at hne ⊢
      by_cases hdn : d = n
      · rwa [hdn, update_self]
      · rw [update_of_ne hdn] at hne
        exact absurd rfl hne
  refine .inr ⟨hstart, fun hleft => ?_, fun hright => ?_⟩
  · refine positions_eq row.left.base hrank (hboth.laid.lefts_length.trans hboth.size_eq.symm)
      fun (f : List Nat → α) k hk => ?_
    rw [hboth.size_eq] at hk
    obtain ⟨env', mid', y', henv, hshape, hboth'⟩ := both_of_preserves hm hy h f
    have hread := hboth'.laid.read_eq
    have hread' := hboth'.read_eq
    rw [henv, hshape] at hread hread'
    have hc := hwithin k hk 0 (by omega)
    have hat := hread _ hc
    rw [hread' _ hc, update_self, update_of_ne hm.ne.symm, update_self,
      if_neg (by omega), if_pos (by omega)] at hat
    exact ⟨_, hat.symm⟩
  · refine positions_eq row.left.base hrank (hboth.laid.rights_length.trans hboth.size_eq.symm)
      fun (f : List Nat → α) k hk => ?_
    rw [hboth.size_eq] at hk
    obtain ⟨env', mid', y', henv, hshape, hboth'⟩ := both_of_preserves hm hy h f
    have hread := hboth'.laid.read_eq
    have hread' := hboth'.read_eq
    rw [henv, hshape] at hread hread'
    have hc := hwithin k hk (coord y.shape n - 1) (by omega)
    have hat := hread _ hc
    rw [hread' _ hc, update_self, update_of_ne hm.ne.symm, update_self,
      if_neg (by omega), if_neg (by omega), if_neg (by omega)] at hat
    exact ⟨_, hat.symm⟩

end

theorem map_op_injective {n' : Nat} {rows' : List Row} (hne : rows ≠ [])
    (h : rows.map (fun row => OuterOperand.concatenate (row.op n)) =
      rows'.map fun row => .concatenate (row.op n')) : n = n' ∧ rows = rows' := by
  have hop : ∀ r r' : Row, OuterOperand.concatenate (r.op n) = .concatenate (r'.op n') → n = n' ∧ r = r' := by
    intro r r' heq
    obtain ⟨hlist, hn⟩ := ConcatenateOp.mk.inj (OuterOperand.concatenate.inj heq)
    obtain ⟨hleft, hrest⟩ := cons.inj hlist
    obtain ⟨hmiddle, hright⟩ := append_singleton_inj.mp hrest
    exact ⟨hn, Row.ext (Operand.slice.inj hleft) hmiddle (Operand.slice.inj hright)⟩
  obtain ⟨row, rest, rfl⟩ := exists_cons_of_ne_nil hne
  obtain ⟨row', rest', rfl, hhead, -⟩ := map_eq_cons_iff.mp h.symm
  obtain ⟨rfl, -⟩ := hop row row' hhead.symm
  exact ⟨rfl, map_injective_iff.mpr (fun r r' heq => (hop r r' heq).2) h⟩

/-- The update is put at the beginning of dimension `n`, where the slices on the left are. -/
theorem concatConcatToDUS_preserves_iff [Nontrivial α]
    (hops : ConcatConcatToDUS y.shape operands o = some ops) (hy : original env operands o = some y) :
    (∃ n row rest, operands = (row :: rest).map fun row => .concatenate (Row.op n row)) ∧
      ∀ n row rest, operands = (row :: rest).map (fun row => .concatenate (Row.op n row)) →
        (Preserves α (fun v => (env v).shape) operands o ops ↔ UpdateHolds y.shape o n row rest ops) := by
  obtain ⟨ho, heval⟩ := eval_operands hy
  obtain ⟨n, row, rest, last, hm⟩ := exists_matched hops fun concat hconcat op hop => by
    obtain ⟨-, t, ht, hrank, -⟩ := heval concat hconcat _ hop
    have hlength := congrArg List.length (eval_slice ht).2.1
    rw [length_map] at hlength
    rwa [← hlength, hrank]
  refine ⟨⟨n, row, rest, hm.operands_eq⟩, fun n' row' rest' hoperands => ?_⟩
  obtain ⟨rfl, hrows⟩ := map_op_injective (cons_ne_nil row rest) (hm.operands_eq.symm.trans hoperands)
  obtain ⟨rfl, rfl⟩ := List.cons.inj hrows
  refine ⟨updateHolds_of_preserves hm hy, fun h env' y' henv hy' => ?_⟩
  obtain ⟨y'', hy'', hshape⟩ := original_of_shapes henv hy
  cases hy'.symm.trans hy''
  rw [← hshape] at hm h
  exact preserved_of_updateHolds hm hy' h

end

end

/-! ### Two rows -/

/-- Two rows of a table: the columns before `a` and from `b` on are those of the table, and in between there is a
column of its own. -/
def twoRows (a b : Int) : List Row :=
  [⟨⟨0, [⟨0, 1, 1⟩, ⟨0, a, 1⟩]⟩, [.value 1], ⟨0, [⟨0, 1, 1⟩, ⟨b, 3, 1⟩]⟩⟩,
    ⟨⟨0, [⟨1, 2, 1⟩, ⟨0, a, 1⟩]⟩, [.value 2], ⟨0, [⟨1, 2, 1⟩, ⟨b, 3, 1⟩]⟩⟩]

def twoRowsOperands (a b : Int) : List OuterOperand :=
  (twoRows a b).map fun row => .concatenate (row.op 1)

/-- The table, and the columns. -/
def table : Nat → Tensor Int
  | 0 => ⟨[2, 3], fun idx => 3 * (coord idx 0 : Int) + (coord idx 1 : Int)⟩
  | _ => ⟨[1, 1], fun _ => -1⟩

def twoRowsOps : NewOps :=
  ⟨[⟨[.value 1], 1⟩, ⟨[.value 2], 1⟩], ⟨0, [⟨0, 2, 1⟩, ⟨0, 3, 1⟩]⟩, [1, 0]⟩

/-- There is nothing on the left. -/
theorem concatConcatToDUS_preserves_right :
    ConcatConcatToDUS [2, 3] (twoRowsOperands 0 1) 0 = some twoRowsOps ∧
      Preserves Int (fun v => (table v).shape) (twoRowsOperands 0 1) 0 twoRowsOps := by
  have hops : ConcatConcatToDUS [2, 3] (twoRowsOperands 0 1) 0 = some twoRowsOps := rfl
  obtain ⟨y, hy, hshape⟩ : ∃ y, original table (twoRowsOperands 0 1) 0 = some y ∧ y.shape = [2, 3] :=
    ⟨_, rfl, rfl⟩
  refine ⟨hops, ?_⟩
  rw [← hshape] at hops
  refine ((concatConcatToDUS_preserves_iff hops hy).2 1 _ _ rfl).mpr ?_
  rw [hshape]
  exact ⟨cons_ne_nil _ _, by decide, .inr ⟨.inl (by decide), by decide, by decide⟩⟩

/-- The column in the middle is put first. -/
theorem not_concatConcatToDUS_preserves :
    ConcatConcatToDUS [2, 3] (twoRowsOperands 1 2) 0 = some twoRowsOps ∧
      ¬Preserves Int (fun v => (table v).shape) (twoRowsOperands 1 2) 0 twoRowsOps := by
  refine ⟨rfl, fun h => ?_⟩
  obtain ⟨z, hz, hsame⟩ := h table _ (fun _ => rfl) rfl
  cases hz
  exact absurd (hsame.get_eq [0, 0] (by decide)) (by decide)

end EnzymeJax.ConcatConcat
