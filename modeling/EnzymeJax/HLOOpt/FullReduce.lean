import EnzymeJax.Library.Relayout

/-!
# Reductions of all elements of reshapes and transposes

All elements of an expression are reduced, which is made of reshapes and transposes by elementwise operations. The
expression is evaluated on the operands of the reshapes and transposes instead.
-/

namespace EnzymeJax.FullReduce

open Tensor Option
open List hiding allSome

variable {κ ε α : Type}

/-! ### Graphs -/

structure TensorType (ε : Type) where
  shape : List Nat
  elementType : ε
deriving DecidableEq

/-- The op of one result that defines a value. An elementwise op has a name, which says what it does to the
elements. -/
inductive Op (κ : Type)
  | reshape (operand : Nat)
  | transpose (permutation : List Nat) (operand : Nat)
  | elementwise (name : κ) (isMemoryEffectFree : Bool) (operands : List Nat)
  | other

namespace Op

def operands : Op κ → List Nat
  | reshape operand => [operand]
  | transpose _ operand => [operand]
  | elementwise _ _ operands => operands
  | other => []

def Ok (type : Nat → TensorType ε) (v : Nat) : Op κ → Prop
  | reshape operand => operand < v ∧ (type v).shape.prod = (type operand).shape.prod
  | transpose permutation operand => operand < v ∧
      permutation.Perm (List.range (type operand).shape.length) ∧
        (type v).shape = permutation.map (coord (type operand).shape)
  | elementwise _ _ operands => operands ≠ [] ∧ ∀ o ∈ operands, o < v ∧ (type o).shape = (type v).shape
  | other => True

end Op

/-- A value without an op is an argument. The users of a value are the ops with it as an operand, once for each
time, in some order. -/
structure Graph (κ ε : Type) where
  defOp : Nat → Option (Op κ)
  type : Nat → TensorType ε
  users : Nat → List Nat
  ok : ∀ v op, defOp v = some op → op.Ok type v

namespace Graph

variable (g : Graph κ ε)

def operands (v : Nat) : List Nat := ((g.defOp v).map Op.operands).getD []

/-- The values of a run, with `interp` saying what elementwise ops do. -/
def Runs (interp : κ → List α → α) (env : Nat → Tensor α) : Prop :=
  ∀ v, (env v).shape = (g.type v).shape ∧
    match g.defOp v with
    | some (.reshape operand) => Tensor.reshape (g.type v).shape (env operand) = some (env v)
    | some (.transpose permutation operand) => Tensor.transpose permutation (env operand) = some (env v)
    | some (.elementwise name _ operands) =>
      Tensor.elementwise (interp name) (g.type v).shape (operands.map env) = some (env v)
    | _ => True

end Graph

/-! ### The pattern -/

/-- A `reduce`, which is an op of the graph. -/
structure ReduceOp (g : Graph κ ε) where
  op : Nat
  inputs : List Nat
  dimensions : List Nat
  nodup : dimensions.Nodup
  lt : ∀ input ∈ inputs, ∀ d ∈ dimensions, d < (g.type input).shape.length

/-- What is found between the reduction and the reshapes and transposes. The ops to clone are with the number of
their operands that are left. -/
structure Found (ε : Type) where
  changeType : Option (TensorType ε)
  reshapeOrTransposes : List Nat
  toclone : List (Nat × Int)

def setCount (toclone : List (Nat × Int)) (op : Nat) (n : Int) : List (Nat × Int) :=
  if op ∈ toclone.map Prod.fst then toclone.map fun p => if p.1 = op then (op, n) else p
  else toclone ++ [(op, n)]

def Found.push (s : Found ε) (v : Nat) (type : TensorType ε) [DecidableEq ε] : Option (Found ε) :=
  match s.changeType with
  | some changeType =>
    if type ≠ changeType then none
    else some { s with reshapeOrTransposes := s.reshapeOrTransposes ++ [v] }
  | none => some { s with changeType := some type, reshapeOrTransposes := s.reshapeOrTransposes ++ [v] }

section

variable (g : Graph κ ε)

/-- The first worklist, with the value to pop first. It is `none` when the fuel runs out, and `some none` when the
pattern fails. -/
def explore [DecidableEq ε] : Nat → List Nat → Found ε → Option (Option (Found ε))
  | 0, _, _ => none
  | _ + 1, [], s => some (some s)
  | fuel + 1, cur :: todo, s =>
    match g.defOp cur with
    | some (.reshape operand) =>
      match s.push cur (g.type operand) with
      | none => some none
      | some s => explore fuel todo s
    | some (.transpose _ operand) =>
      match s.push cur (g.type operand) with
      | none => some none
      | some s => explore fuel todo s
    | some (.elementwise _ isMemoryEffectFree operands) =>
      if isMemoryEffectFree then
        explore fuel (operands.reverse ++ todo)
          { s with toclone := setCount s.toclone cur operands.length }
      else some none
    | _ => some none

/-- A value of the graph or the result of an op that was created. -/
inductive Ref
  | value (v : Nat)
  | created (i : Nat)

structure Created (κ ε : Type) where
  name : κ
  operands : List Ref
  type : TensorType ε

structure Counts where
  toclone : List (Nat × Int)
  todo : List Nat

def Counts.use (s : Counts) (u : Nat) : Counts :=
  match s.toclone.lookup u with
  | none => s
  | some n =>
    if n - 1 = 0 then ⟨s.toclone.filter fun p => p.1 ≠ u, u :: s.todo⟩
    else { s with toclone := setCount s.toclone u (n - 1) }

structure Cloning (κ ε : Type) where
  map : Nat → Option Ref
  counts : Counts
  created : List (Created κ ε)

/-- A reshape or transpose is mapped to its operand. -/
def Cloning.skip (s : Cloning κ ε) (v : Nat) : Cloning κ ε :=
  { s with
    map := Function.update s.map v (some (.value ((g.operands v).headD 0)))
    counts := (g.users v).foldl Counts.use s.counts }

/-- It is `none` if an operand is not mapped, where the lookup asserts that it is. -/
def Cloning.clone (s : Cloning κ ε) (shape : List Nat) (cur : Nat) : Option (Cloning κ ε) :=
  match g.defOp cur with
  | some (.elementwise name _ operands) =>
    (allSome (operands.map s.map)).map fun vals =>
      ⟨Function.update s.map cur (some (.created s.created.length)), (g.users cur).foldl Counts.use s.counts,
        s.created ++ [⟨name, vals, ⟨shape, (g.type cur).elementType⟩⟩]⟩
  | _ => none

/-- The second worklist. -/
def cloneAll (shape : List Nat) : Nat → Cloning κ ε → Option (Cloning κ ε)
  | fuel, s =>
    match s.counts.todo with
    | [] => some s
    | cur :: todo =>
      match fuel with
      | 0 => none
      | fuel + 1 =>
        ({ s with counts := ⟨s.counts.toclone, todo⟩ }.clone g shape cur).bind (cloneAll shape fuel)

structure Rewritten (κ ε : Type) where
  created : List (Created κ ε)
  operand : Ref
  dimensions : List Nat

/-- A use outside of what is reduced. -/
def usedElsewhere (op : Nat) (s : Found ε) (toclone : List (Nat × Int)) : Bool :=
  toclone.any fun p => (g.users p.1).any fun u =>
    u ≠ op ∧ u ∉ s.reshapeOrTransposes ∧ u ∉ toclone.map Prod.fst

def rewrite (op input : Nat) (s : Found ε) : Option (Rewritten κ ε) :=
  s.changeType.bind fun changeType =>
    let c := s.reshapeOrTransposes.foldl (Cloning.skip g) ⟨fun _ => none, ⟨s.toclone, []⟩, []⟩
    if usedElsewhere g op s c.counts.toclone then none
    else if c.counts.todo.any fun cur => (g.operands cur).any fun o => (c.map o).isNone then none
    else (cloneAll g changeType.shape (c.counts.toclone.length + c.counts.todo.length) c).bind fun c =>
      (c.map input).map fun operand => ⟨c.created, operand, List.range changeType.shape.length⟩

def FullReduceReshapeOrTranspose [DecidableEq ε] (fuel : Nat) (op : ReduceOp g) :
    Option (Option (Rewritten κ ε)) :=
  match op.inputs with
  | [input] =>
    if op.dimensions.length ≠ (g.type input).shape.length then some none
    else (explore g fuel [input] ⟨none, [], []⟩).map fun s => s.bind (rewrite g op.op input)
  | _ => some none

end

/-! ### What is computed instead -/

def Ref.get? (env : Nat → Tensor α) (ys : List (Tensor α)) : Ref → Option (Tensor α)
  | value v => some (env v)
  | created i => ys[i]?

/-- The results of the ops, one after another. -/
def runCreated (interp : κ → List α → α) (env : Nat → Tensor α) :
    List (Created κ ε) → List (Tensor α) → Option (List (Tensor α))
  | [], ys => some ys
  | c :: cs, ys => (allSome (c.operands.map (Ref.get? env ys))).bind fun xs =>
      (elementwise (interp c.name) c.type.shape xs).bind fun y => runCreated interp env cs (ys ++ [y])

def Rewritten.result (r : Rewritten κ ε) (interp : κ → List α → α) (env : Nat → Tensor α)
    (reducer : α → α → α) [Std.Commutative reducer] [Std.Associative reducer] (init : α) :
    Option (Tensor α) :=
  (runCreated interp env r.created []).bind fun ys =>
    (r.operand.get? env ys).bind (reduce reducer init r.dimensions)

/-- The same value, whatever the elementwise ops do, the reducer and all elements are. -/
def Preserves (g : Graph κ ε) (op : ReduceOp g) (r : Rewritten κ ε) : Prop :=
  ∀ (α : Type) (interp : κ → List α → α) (env : Nat → Tensor α) (reducer : α → α → α)
    [Std.Commutative reducer] [Std.Associative reducer] (init : α), g.Runs interp env →
      ∀ input ∈ op.inputs, ∀ y, reduce reducer init op.dimensions (env input) = some y →
        ∃ z, r.result interp env reducer init = some z ∧ Same z y

/-! ### The frontier -/

namespace Graph

variable (g : Graph κ ε)

def Uses (v o : Nat) : Prop :=
  ∃ name isMemoryEffectFree operands, g.defOp v = some (.elementwise name isMemoryEffectFree operands) ∧ o ∈ operands

/-- The value comes about from the other one by a reshape or transpose, with the index of each element in it. -/
def relayout (v : Nat) : Option (Nat × (List Nat → List Nat)) :=
  match g.defOp v with
  | some (.reshape operand) => some (operand, reshapeSource (g.type v).shape (g.type operand).shape)
  | some (.transpose permutation operand) =>
    some (operand, transposeSource permutation (g.type operand).shape.length)
  | _ => none

/-- The reshapes and transposes that are reached through elementwise ops take the element of each index from one
index of their operands. -/
def SameLayout (input : Nat) : Prop :=
  ∀ v w o p source source', Relation.ReflTransGen g.Uses input v → Relation.ReflTransGen g.Uses input w →
    g.relayout v = some (o, source) → g.relayout w = some (p, source') →
      ∀ idx ∈ indices (g.type input).shape, source idx = source' idx

end Graph

/-! ### The first worklist -/

section

variable {g : Graph κ ε} {v w o p input : Nat}

/-- An elementwise op, or a reshape or transpose of a tensor of the type. -/
def Graph.Explored (g : Graph κ ε) (changeType : Option (TensorType ε)) (v : Nat) : Prop :=
  (∃ name isMemoryEffectFree operands, g.defOp v = some (.elementwise name isMemoryEffectFree operands)) ∨
    ∃ o source, g.relayout v = some (o, source) ∧ changeType = some (g.type o)

theorem relayout_of_reshape (h : g.defOp v = some (.reshape o)) :
    g.relayout v = some (o, reshapeSource (g.type v).shape (g.type o).shape) := by
  rw [Graph.relayout, h]

theorem relayout_of_transpose {perm : List Nat} (h : g.defOp v = some (.transpose perm o)) :
    g.relayout v = some (o, transposeSource perm (g.type o).shape.length) := by
  rw [Graph.relayout, h]

variable {source : List Nat → List Nat} {s s' : Found ε} {todo : List Nat}

theorem defOp_of_relayout (h : g.relayout v = some (o, source)) :
    (g.defOp v = some (.reshape o) ∧ source = reshapeSource (g.type v).shape (g.type o).shape) ∨
      ∃ perm, g.defOp v = some (.transpose perm o) ∧ source = transposeSource perm (g.type o).shape.length := by
  rw [Graph.relayout] at h
  split at h
  · rename_i hop
    cases some.inj h
    exact .inl ⟨hop, rfl⟩
  · rename_i hop
    cases some.inj h
    exact .inr ⟨_, hop, rfl⟩
  · cases h

theorem not_uses_of_relayout (h : g.relayout v = some (o, source)) : ¬g.Uses v w := by
  rintro ⟨name, free, operands, hop, -⟩
  rcases defOp_of_relayout h with ⟨hop', -⟩ | ⟨perm, hop', -⟩
  · rw [hop] at hop'
    cases hop'
  · rw [hop] at hop'
    cases hop'

variable [DecidableEq ε]

theorem Found.push_eq {type : TensorType ε} (h : s.push v type = some s') :
    s'.changeType = some type ∧ (∀ t, s.changeType = some t → t = type) ∧
      s'.reshapeOrTransposes = s.reshapeOrTransposes ++ [v] := by
  rw [Found.push] at h
  split at h
  · rename_i changeType hchange
    split at h
    · cases h
    · rename_i heq
      cases h
      rw [not_not] at heq
      refine ⟨hchange.trans (congrArg some heq.symm), fun t ht => ?_, rfl⟩
      rw [heq]
      exact some.inj (ht.symm.trans hchange)
  · rename_i hnone
    cases h
    refine ⟨rfl, fun t ht => ?_, rfl⟩
    rw [hnone] at ht
    cases ht

/-- All that is reached is explored, and the type found first stays. -/
theorem explore_spec {fuel : Nat} (h : explore g fuel todo s = some (some s')) :
    (∀ t, s.changeType = some t → s'.changeType = some t) ∧
      (∀ v ∈ todo, ∀ w, Relation.ReflTransGen g.Uses v w → g.Explored s'.changeType w) ∧
        ∀ v ∈ s'.reshapeOrTransposes, v ∈ s.reshapeOrTransposes ∨
          ∃ o source, g.relayout v = some (o, source) ∧ s'.changeType = some (g.type o) := by
  induction fuel generalizing todo s with
  | zero => cases h
  | succ fuel ih =>
    cases todo with
    | nil =>
      cases some.inj h
      exact ⟨fun _ ht => ht, fun _ hv => absurd hv not_mem_nil, fun _ hv => .inl hv⟩
    | cons cur todo =>
      -- a reshape or a transpose
      have hrelayout : ∀ o source s₁, g.relayout cur = some (o, source) → s.push cur (g.type o) = some s₁ →
          explore g fuel todo s₁ = some (some s') → (∀ t, s.changeType = some t → s'.changeType = some t) ∧
              (∀ v ∈ cur :: todo, ∀ w, Relation.ReflTransGen g.Uses v w → g.Explored s'.changeType w) ∧
                ∀ v ∈ s'.reshapeOrTransposes, v ∈ s.reshapeOrTransposes ∨
                  ∃ o source, g.relayout v = some (o, source) ∧ s'.changeType = some (g.type o) := by
        intro o source s₁ hcur hpush hrest
        obtain ⟨htype, hsame, hlist⟩ := Found.push_eq hpush
        obtain ⟨hkeep, hreached, hall⟩ := ih hrest
        have hchange := hkeep _ htype
        refine ⟨fun t ht => ?_, forall_mem_cons.mpr ⟨fun w hw => ?_, hreached⟩, fun v hv => ?_⟩
        · rw [hsame t ht]
          exact hchange
        · rcases hw.cases_head with rfl | ⟨o', huses, -⟩
          · exact .inr ⟨o, source, hcur, hchange⟩
          · exact absurd huses (not_uses_of_relayout hcur)
        · rcases hall v hv with hv | hv
          · rw [hlist] at hv
            rcases mem_append.mp hv with hv | hv
            · exact .inl hv
            · obtain rfl := mem_singleton.mp hv
              exact .inr ⟨o, source, hcur, hchange⟩
          · exact .inr hv
      rw [explore] at h
      split at h
      · rename_i o hop
        split at h
        · cases h
        · rename_i s₁ hpush
          exact hrelayout o _ s₁ (relayout_of_reshape hop) hpush h
      · rename_i perm o hop
        split at h
        · cases h
        · rename_i s₁ hpush
          exact hrelayout o _ s₁ (relayout_of_transpose hop) hpush h
      · rename_i name free operands hop
        split at h
        · obtain ⟨hkeep, hreached, hall⟩ := ih h
          refine ⟨hkeep, forall_mem_cons.mpr ⟨fun w hw => ?_, fun v hv => ?_⟩, hall⟩
          · rcases hw.cases_head with rfl | ⟨o, ⟨name', free', operands', hop', ho⟩, hw⟩
            · exact .inl ⟨name, free, operands, hop⟩
            · rw [hop] at hop'
              obtain ⟨rfl, rfl, rfl⟩ := Op.elementwise.inj (some.inj hop')
              exact hreached o (mem_append_left _ (mem_reverse.mpr ho)) w hw
          · exact hreached v (mem_append_right _ hv)
        · cases h
      · cases h

omit [DecidableEq ε] in
theorem lt_of_mem_operands (ho : o ∈ g.operands v) : o < v := by
  rw [Graph.operands] at ho
  cases hop : g.defOp v with
  | none =>
    rw [hop] at ho
    cases ho
  | some op =>
    rw [hop] at ho
    have hok := g.ok v op hop
    cases op with
    | reshape operand | transpose perm operand =>
      obtain rfl := mem_singleton.mp ho
      exact hok.1
    | elementwise name free operands => exact (hok.2 o ho).1
    | other => cases ho

/-- The number of times that values are taken from the worklist because of a value. -/
def steps (g : Graph κ ε) (v : Nat) : Nat :=
  1 + ((g.operands v).attach.map fun o => steps g o.1).sum
termination_by v
decreasing_by exact lt_of_mem_operands o.2

omit [DecidableEq ε] in
theorem steps_eq (v : Nat) : steps g v = 1 + ((g.operands v).map (steps g)).sum := by
  rw [steps, List.attach_map_val]

theorem explore_ends {fuel : Nat} (s : Found ε) (h : (todo.map (steps g)).sum < fuel) :
    ∃ r, explore g fuel todo s = some r := by
  induction fuel generalizing todo s with
  | zero => cases h
  | succ fuel ih =>
    cases todo with
    | nil => exact ⟨_, rfl⟩
    | cons cur todo =>
      rw [map_cons, sum_cons, steps_eq] at h
      rw [explore]
      split
      · split
        · exact ⟨_, rfl⟩
        · exact ih _ (by omega)
      · split
        · exact ⟨_, rfl⟩
        · exact ih _ (by omega)
      · rename_i name free operands hop
        split
        · refine ih _ ?_
          have hops : g.operands cur = operands := by
            rw [Graph.operands, hop]
            rfl
          rw [hops] at h
          rw [map_append, sum_append, map_reverse, sum_reverse]
          omega
        · exact ⟨_, rfl⟩
      · exact ⟨_, rfl⟩

end

/-! ### The second worklist -/

variable {name : κ} {free : Bool} {operands : List Nat}

section

variable {g : Graph κ ε} {interp : κ → List α → α} {env : Nat → Tensor α} {shape : List Nat} {v w o : Nat}

/-- The value of the expression evaluated on the operands of the reshapes and transposes. -/
def direct (g : Graph κ ε) (interp : κ → List α → α) (env : Nat → Tensor α) (shape : List Nat) (v : Nat) :
    Tensor α :=
  match g.relayout v, g.defOp v with
  | some (o, _), _ => env o
  | none, some (.elementwise name _ _) =>
    ⟨shape, fun idx => interp name ((g.operands v).attach.map fun o =>
      (direct g interp env shape o.1).get idx)⟩
  | none, _ => env v
termination_by v
decreasing_by exact lt_of_mem_operands o.2

theorem direct_of_relayout {source : List Nat → List Nat} (h : g.relayout v = some (o, source)) :
    direct g interp env shape v = env o := by
  rw [direct, h]

theorem direct_of_elementwise (h : g.defOp v = some (.elementwise name free operands)) : direct g interp env shape v =
      ⟨shape, fun idx => interp name (operands.map fun o => (direct g interp env shape o).get idx)⟩ := by
  have hrelayout : g.relayout v = none := by rw [Graph.relayout, h]
  have hops : g.operands v = operands := by
    rw [Graph.operands, h]
    rfl
  rw [direct, hrelayout, h]
  refine congrArg (Tensor.mk shape) (funext fun idx => congrArg (interp name) ?_)
  rw [List.attach_map_val (f := fun o => (direct g interp env shape o).get idx), hops]

/-- The ops created run, and what a value is mapped to is its expression evaluated directly. -/
def Cloning.Holds (g : Graph κ ε) (interp : κ → List α → α) (env : Nat → Tensor α) (shape : List Nat)
    (s : Cloning κ ε) : Prop :=
  ∃ ys, runCreated interp env s.created [] = some ys ∧ ys.length = s.created.length ∧
    ∀ v ref, s.map v = some ref → ref.get? env ys = some (direct g interp env shape v) ∧
      (direct g interp env shape v).shape = shape

theorem runCreated_append (cs cs' : List (Created κ ε)) (ys : List (Tensor α)) :
    runCreated interp env (cs ++ cs') ys = (runCreated interp env cs ys).bind (runCreated interp env cs') := by
  induction cs generalizing ys with
  | nil => rfl
  | cons c cs ih =>
    rw [cons_append, runCreated, runCreated, bind_assoc]
    refine congrArg _ (funext fun xs => ?_)
    rw [bind_assoc]
    exact congrArg _ (funext fun y => ih _)

theorem Ref.get?_append {ref : Ref} {ys : List (Tensor α)} {x : Tensor α} (h : ref.get? env ys = some x)
    (zs : List (Tensor α)) : ref.get? env (ys ++ zs) = some x := by
  cases ref with
  | value v => exact h
  | created i =>
    obtain ⟨hi, -⟩ := List.getElem?_eq_some_iff.mp h
    exact (getElem?_append_left hi).trans h

variable {s s' : Cloning κ ε}

theorem Cloning.Holds.skip (hs : s.Holds g interp env shape) (hrelayout : ∃ source, g.relayout v = some (o, source))
    (hshape : (env o).shape = shape) : (s.skip g v).Holds g interp env shape := by
  obtain ⟨ys, hrun, hlen, hmap⟩ := hs
  obtain ⟨source, hv⟩ := hrelayout
  have hoperand : (g.operands v).headD 0 = o := by
    rcases defOp_of_relayout hv with ⟨hop, -⟩ | ⟨perm, hop, -⟩
    · rw [Graph.operands, hop]
      rfl
    · rw [Graph.operands, hop]
      rfl
  refine ⟨ys, hrun, hlen, fun w ref href => ?_⟩
  change Function.update s.map v _ w = some ref at href
  rw [Function.update_apply] at href
  split at href
  · rename_i hw
    cases href
    rw [hoperand, hw, direct_of_relayout hv]
    exact ⟨rfl, hshape⟩
  · exact hmap w ref href

theorem Cloning.Holds.clone (hs : s.Holds g interp env shape) (h : s.clone g shape v = some s') :
    s'.Holds g interp env shape := by
  obtain ⟨ys, hrun, hlen, hmap⟩ := hs
  rw [Cloning.clone] at h
  split at h
  · rename_i name free operands hop
    obtain ⟨vals, hvals, rfl⟩ := map_eq_some_iff.mp h
    have hargs : allSome (vals.map (Ref.get? env ys)) = some (operands.map (direct g interp env shape)) := by
      rw [allSome_map_iff, forall₂_map_right_iff]
      exact (allSome_map_iff.mp hvals).flip.imp fun ref o hmapped => (hmap o ref hmapped).1
    have hshapes : ∀ x ∈ operands.map (direct g interp env shape), x.shape = shape := by
      intro x hx
      obtain ⟨o, ho, rfl⟩ := mem_map.mp hx
      obtain ⟨ref, href⟩ := exists_allSome_iff.mp ⟨vals, hvals⟩ _ (mem_map_of_mem ho)
      exact (hmap o ref href).2
    have hval : elementwise (interp name) shape (operands.map (direct g interp env shape)) =
        some (direct g interp env shape v) := by
      rw [elementwise_of_shape _ hshapes, direct_of_elementwise hop]
      refine congrArg (fun f => some (Tensor.mk shape f)) (funext fun idx => ?_)
      rw [List.map_map]
      rfl
    refine ⟨ys ++ [direct g interp env shape v], ?_, by rw [length_append, length_append, hlen,
      length_singleton, length_singleton], fun w ref href => ?_⟩
    · rw [runCreated_append, hrun, bind_some, runCreated]
      dsimp only
      rw [hargs, bind_some, hval, bind_some, runCreated]
    · dsimp only at href
      rw [Function.update_apply] at href
      split at href
      · rename_i hw
        cases href
        rw [hw, direct_of_elementwise hop]
        refine ⟨?_, rfl⟩
        rw [Ref.get?, ← hlen, getElem?_concat_length]
      · obtain ⟨hget, hshape⟩ := hmap w ref href
        exact ⟨Ref.get?_append hget _, hshape⟩
  · cases h

theorem Cloning.Holds.cloneAll {fuel : Nat} (hs : s.Holds g interp env shape)
    (h : cloneAll g shape fuel s = some s') : s'.Holds g interp env shape := by
  induction fuel generalizing s with
  | zero =>
    rw [FullReduce.cloneAll] at h
    split at h
    · cases h
      exact hs
    · cases h
  | succ fuel ih =>
    rw [FullReduce.cloneAll] at h
    split at h
    · cases h
      exact hs
    · rename_i cur todo htodo
      obtain ⟨s₁, hclone, hrest⟩ := bind_eq_some_iff.mp h
      have hpopped : Cloning.Holds g interp env shape { s with counts := ⟨s.counts.toclone, todo⟩ } := hs
      exact ih (hpopped.clone hclone) hrest

theorem length_use (s : Counts) (u : Nat) :
    (s.use u).toclone.length + (s.use u).todo.length ≤ s.toclone.length + s.todo.length := by
  rw [Counts.use]
  split
  · exact le_rfl
  · rename_i n hlookup
    obtain ⟨l₁, l₂, hsplit, -⟩ := lookup_eq_some_iff.mp hlookup
    have hmem : (u, n) ∈ s.toclone := by
      rw [hsplit]
      exact mem_append_right _ mem_cons_self
    split
    · have hlt : (s.toclone.filter fun p => p.1 ≠ u).length < s.toclone.length :=
        length_filter_lt_length_iff_exists.mpr ⟨_, hmem, by simp⟩
      dsimp only
      rw [length_cons]
      omega
    · rw [setCount, if_pos (mem_map.mpr ⟨_, hmem, rfl⟩), length_map]

theorem length_uses (us : List Nat) (s : Counts) :
    (us.foldl Counts.use s).toclone.length + (us.foldl Counts.use s).todo.length ≤
      s.toclone.length + s.todo.length := by
  induction us generalizing s with
  | nil => exact le_rfl
  | cons u us ih => exact (ih (s.use u)).trans (length_use s u)

theorem cloneAll_succ {fuel : Nat} (h : s.counts.toclone.length + s.counts.todo.length ≤ fuel) :
    cloneAll g shape (fuel + 1) s = cloneAll g shape fuel s := by
  induction fuel generalizing s with
  | zero =>
    have htodo : s.counts.todo = [] := eq_nil_of_length_eq_zero (by omega)
    rw [cloneAll, cloneAll, htodo]
  | succ fuel ih =>
    rw [cloneAll, cloneAll]
    cases htodo : s.counts.todo with
    | nil => rfl
    | cons cur todo =>
      refine bind_congr fun s' hs' => ih ?_
      rw [Cloning.clone] at hs'
      split at hs'
      · obtain ⟨vals, -, rfl⟩ := map_eq_some_iff.mp hs'
        have huses := length_uses (g.users cur) ⟨s.counts.toclone, todo⟩
        rw [htodo, length_cons] at h
        dsimp only at huses ⊢
        omega
      · cases hs'

/-- The operand of the new reduction is the expression evaluated directly. -/
theorem rewrite_spec (interp : κ → List α → α) (env : Nat → Tensor α) {op input : Nat} {s : Found ε}
    {r : Rewritten κ ε} (h : rewrite g op input s = some r)
    (hs : ∀ v ∈ s.reshapeOrTransposes, ∃ o source, g.relayout v = some (o, source) ∧
      s.changeType = some (g.type o)) (henv : ∀ v, (env v).shape = (g.type v).shape) :
    ∃ changeType ys, s.changeType = some changeType ∧ runCreated interp env r.created [] = some ys ∧
      r.operand.get? env ys = some (direct g interp env changeType.shape input) ∧
        (direct g interp env changeType.shape input).shape = changeType.shape ∧
          r.dimensions = range changeType.shape.length := by
  obtain ⟨changeType, hchange, h⟩ := bind_eq_some_iff.mp h
  dsimp only at h
  split at h
  · cases h
  · split at h
    · cases h
    · obtain ⟨c, hc, h⟩ := bind_eq_some_iff.mp h
      obtain ⟨ref, href, rfl⟩ := map_eq_some_iff.mp h
      have hstart : Cloning.Holds g interp env changeType.shape
          ⟨fun _ => none, ⟨s.toclone, []⟩, []⟩ := ⟨[], rfl, rfl, fun _ _ hnone => nomatch hnone⟩
      have hskip : ∀ (vs : List Nat) (c : Cloning κ ε), (∀ v ∈ vs, v ∈ s.reshapeOrTransposes) →
          c.Holds g interp env changeType.shape →
            (vs.foldl (Cloning.skip g) c).Holds g interp env changeType.shape := by
        intro vs
        induction vs with
        | nil => exact fun c _ hc => hc
        | cons v vs ih =>
          intro c hvs hc
          obtain ⟨hv, hvs⟩ := forall_mem_cons.mp hvs
          obtain ⟨o, source, hrelayout, htype⟩ := hs v hv
          refine ih _ hvs (hc.skip ⟨source, hrelayout⟩ ?_)
          rw [henv o, some.inj (hchange.symm.trans htype)]
      obtain ⟨ys, hrun, -, hmap⟩ := (hskip _ _ (fun _ hv => hv) hstart).cloneAll hc
      obtain ⟨hget, hshape⟩ := hmap input ref href
      exact ⟨changeType, ys, hchange, hrun, hget, hshape, rfl⟩

end

/-! ### Runs -/

section

variable {g : Graph κ ε} {interp : κ → List α → α} {env : Nat → Tensor α} {shape : List Nat}
  {changeType : Option (TensorType ε)} {v w o input : Nat} {source : List Nat → List Nat}

theorem bijOn_of_relayout (h : g.relayout v = some (o, source)) :
    Set.BijOn source (indices (g.type v).shape) (indices (g.type o).shape) := by
  rcases defOp_of_relayout h with ⟨hop, rfl⟩ | ⟨perm, hop, rfl⟩
  · exact bijOn_reshape (g.ok v _ hop).2
  · obtain ⟨-, hperm, hshape⟩ := g.ok v _ hop
    rw [hshape]
    exact bijOn_transpose hperm

theorem lt_of_relayout (h : g.relayout v = some (o, source)) : o < v := by
  rcases defOp_of_relayout h with ⟨hop, -⟩ | ⟨perm, hop, -⟩
  · exact (g.ok v _ hop).1
  · exact (g.ok v _ hop).1

theorem get_of_relayout (henv : g.Runs interp env) (h : g.relayout v = some (o, source)) (idx : List Nat) :
    (env v).get idx = (env o).get (source idx) := by
  obtain ⟨-, hrun⟩ := henv v
  obtain ⟨hoperand, -⟩ := henv o
  rcases defOp_of_relayout h with ⟨hop, rfl⟩ | ⟨perm, hop, rfl⟩
  · rw [hop] at hrun
    dsimp only at hrun
    rw [Tensor.reshape] at hrun
    split at hrun
    · rw [← some.inj hrun, ← hoperand]
      rfl
    · cases hrun
  · rw [hop] at hrun
    dsimp only at hrun
    rw [Tensor.transpose] at hrun
    split at hrun
    · rw [← some.inj hrun, ← hoperand]
      rfl
    · cases hrun

theorem get_of_elementwise (henv : g.Runs interp env) (h : g.defOp v = some (.elementwise name free operands))
    (idx : List Nat) : (env v).get idx = interp name (operands.map fun o => (env o).get idx) := by
  obtain ⟨-, hrun⟩ := henv v
  rw [h] at hrun
  obtain ⟨-, hv⟩ := eq_of_elementwise hrun
  rw [hv]
  dsimp only
  rw [List.map_map]
  rfl

theorem shape_of_uses (h : g.Uses v o) : o < v ∧ (g.type o).shape = (g.type v).shape := by
  obtain ⟨name, free, operands, hop, ho⟩ := h
  exact (g.ok v _ hop).2 o ho

theorem shape_of_reached (h : Relation.ReflTransGen g.Uses v w) : (g.type w).shape = (g.type v).shape := by
  induction h with
  | refl => rfl
  | tail _ huses ih => exact (shape_of_uses huses).2.trans ih

theorem exists_relayout (h : ∀ w, Relation.ReflTransGen g.Uses v w → g.Explored changeType w) :
    ∃ w o source, Relation.ReflTransGen g.Uses v w ∧ g.relayout w = some (o, source) := by
  induction v using Nat.strong_induction_on with
  | _ v ih =>
    rcases h v .refl with ⟨name, free, operands, hop⟩ | ⟨o, source, hv, -⟩
    · obtain ⟨o, ho⟩ := exists_mem_of_ne_nil _ (g.ok v _ hop).1
      have huses : g.Uses v o := ⟨name, free, operands, hop, ho⟩
      obtain ⟨w, o', source, hw, hrelayout⟩ := ih o (shape_of_uses huses).1 fun w hw => h w (hw.head huses)
      exact ⟨w, o', source, hw.head huses, hrelayout⟩
    · exact ⟨v, o, source, .refl, hv⟩

theorem get_direct (henv : g.Runs interp env) (h : ∀ w, Relation.ReflTransGen g.Uses v w → g.Explored changeType w)
    (hsrc : ∀ w o source', Relation.ReflTransGen g.Uses v w → g.relayout w = some (o, source') →
      ∀ idx ∈ indices (g.type v).shape, source' idx = source idx) :
    ∀ idx ∈ indices (g.type v).shape, (env v).get idx = (direct g interp env shape v).get (source idx) := by
  induction v using Nat.strong_induction_on with
  | _ v ih =>
    intro idx hidx
    rcases h v .refl with ⟨name, free, operands, hop⟩ | ⟨o, source', hv, -⟩
    · rw [get_of_elementwise henv hop, direct_of_elementwise hop]
      refine congrArg (interp name) (map_congr_left fun o ho => ?_)
      have huses : g.Uses v o := ⟨name, free, operands, hop, ho⟩
      obtain ⟨hlt, hshape⟩ := shape_of_uses huses
      refine ih o hlt (fun w hw => h w (hw.head huses)) (fun w o' source' hw hrelayout => ?_) idx
        (hshape.symm ▸ hidx)
      rw [hshape]
      exact hsrc w o' source' (hw.head huses) hrelayout
    · rw [get_of_relayout henv hv, direct_of_relayout hv, hsrc v o source' .refl hv idx hidx]

/-! ### A run with all elements different -/

/-- A run, with what the elements of arguments and of other ops are. -/
def run (g : Graph κ ε) (interp : κ → List α → α) (x : Nat → List Nat → α) (v : Nat) : Tensor α :=
  match _hrelayout : g.relayout v, g.defOp v with
  | some (o, source), _ => ⟨(g.type v).shape, fun idx => (run g interp x o).get (source idx)⟩
  | none, some (.elementwise name _ _) =>
    ⟨(g.type v).shape, fun idx => interp name ((g.operands v).attach.map fun o =>
      (run g interp x o.1).get idx)⟩
  | none, _ => ⟨(g.type v).shape, x v⟩
termination_by v
decreasing_by
  · exact lt_of_relayout _hrelayout
  · exact lt_of_mem_operands o.2

variable {x : Nat → List Nat → α}

theorem run_of_relayout (h : g.relayout v = some (o, source)) :
    run g interp x v = ⟨(g.type v).shape, fun idx => (run g interp x o).get (source idx)⟩ := by
  rw [run, h]

theorem run_of_elementwise (h : g.defOp v = some (.elementwise name free operands)) : run g interp x v =
      ⟨(g.type v).shape, fun idx => interp name (operands.map fun o => (run g interp x o).get idx)⟩ := by
  have hrelayout : g.relayout v = none := by rw [Graph.relayout, h]
  have hops : g.operands v = operands := by
    rw [Graph.operands, h]
    rfl
  rw [run, hrelayout, h]
  refine congrArg (Tensor.mk _) (funext fun idx => congrArg (interp name) ?_)
  rw [List.attach_map_val (f := fun o => (run g interp x o).get idx), hops]

section

variable (h : g.defOp v = none ∨ g.defOp v = some .other)

include h

theorem relayout_of_source : g.relayout v = none := by
  rw [Graph.relayout]
  rcases h with h | h
  · rw [h]
  · rw [h]

theorem direct_of_source :
    direct g interp env shape v = env v := by
  rw [direct, relayout_of_source h]
  rcases h with h | h
  · rw [h]
  · rw [h]

theorem run_of_source :
    run g interp x v = ⟨(g.type v).shape, x v⟩ := by
  rw [run, relayout_of_source h]
  rcases h with h | h
  · rw [h]
  · rw [h]

end

theorem shape_run (x : Nat → List Nat → α) (v : Nat) : (run g interp x v).shape = (g.type v).shape := by
  cases hop : g.defOp v with
  | none => rw [run_of_source (.inl hop)]
  | some op =>
    cases op with
    | reshape o => rw [run_of_relayout (relayout_of_reshape hop)]
    | transpose perm o => rw [run_of_relayout (relayout_of_transpose hop)]
    | elementwise name free operands => rw [run_of_elementwise hop]
    | other => rw [run_of_source (.inr hop)]

theorem runs_run (x : Nat → List Nat → α) : g.Runs interp (run g interp x) := by
  intro v
  refine ⟨shape_run x v, ?_⟩
  cases hop : g.defOp v with
  | none => trivial
  | some op =>
    have hok := g.ok v op hop
    cases op with
    | reshape o =>
      dsimp only
      rw [Tensor.reshape, shape_run, if_pos hok.2, run_of_relayout (relayout_of_reshape hop)]
      rfl
    | transpose perm o =>
      dsimp only
      rw [Tensor.transpose, shape_run, if_pos hok.2.1, run_of_relayout (relayout_of_transpose hop), hok.2.2]
      rfl
    | elementwise name free operands =>
      dsimp only
      rw [elementwise_of_shape, run_of_elementwise hop]
      · refine congrArg (fun f => some (Tensor.mk _ f)) (funext fun idx => ?_)
        rw [List.map_map]
        rfl
      · intro t ht
        obtain ⟨o, ho, rfl⟩ := mem_map.mp ht
        rw [shape_run]
        exact (hok.2 o ho).2
    | other => trivial

end

section

variable {g : Graph κ ε} {shape : List Nat} {changeType : Option (TensorType ε)} {v w o input : Nat}
  {source : List Nat → List Nat} {idx idx' : List Nat}

/-- The run in which elements of arguments and of other ops are all different and ops are not evaluated. -/
def freeRun (g : Graph κ ε) : Nat → Tensor (Set (Term κ)) :=
  run g Term.free fun v idx => {Term.element v idx}

theorem defOp_cases (g : Graph κ ε) (v : Nat) : (g.defOp v = none ∨ g.defOp v = some .other) ∨
    (∃ o source, g.relayout v = some (o, source)) ∨
      ∃ name free operands, g.defOp v = some (.elementwise name free operands) := by
  cases hop : g.defOp v with
  | none => exact .inl (.inl rfl)
  | some op =>
    cases op with
    | reshape o => exact .inr (.inl ⟨_, _, relayout_of_reshape hop⟩)
    | transpose perm o => exact .inr (.inl ⟨_, _, relayout_of_transpose hop⟩)
    | elementwise name free operands => exact .inr (.inr ⟨name, free, operands, rfl⟩)
    | other => exact .inl (.inr rfl)

theorem freeRun_singleton (v : Nat) (idx : List Nat) : ∃ t, (freeRun g v).get idx = {t} := by
  induction v using Nat.strong_induction_on generalizing idx with
  | _ v ih =>
    rcases defOp_cases g v with hsrc | ⟨o, source, hv⟩ | ⟨name, free, operands, hop⟩
    · rw [freeRun, run_of_source hsrc]
      exact ⟨_, rfl⟩
    · rw [freeRun, run_of_relayout hv]
      exact ih o (lt_of_relayout hv) _
    · rw [freeRun, run_of_elementwise hop]
      refine Term.free_eq_singleton fun x hx => ?_
      obtain ⟨o, ho, rfl⟩ := mem_map.mp hx
      exact ih o (shape_of_uses ⟨name, free, operands, hop, ho⟩).1 idx

theorem direct_singleton (shape : List Nat) (v : Nat) (idx : List Nat) :
    ∃ t, (direct g Term.free (freeRun g) shape v).get idx = {t} := by
  induction v using Nat.strong_induction_on generalizing idx with
  | _ v ih =>
    rcases defOp_cases g v with hsrc | ⟨o, source, hv⟩ | ⟨name, free, operands, hop⟩
    · rw [direct_of_source hsrc]
      exact freeRun_singleton v idx
    · rw [direct_of_relayout hv]
      exact freeRun_singleton o idx
    · rw [direct_of_elementwise hop]
      refine Term.free_eq_singleton fun x hx => ?_
      obtain ⟨o, ho, rfl⟩ := mem_map.mp hx
      exact ih o (shape_of_uses ⟨name, free, operands, hop, ho⟩).1 idx

theorem freeRun_inj (hidx : idx ∈ indices (g.type v).shape) (hidx' : idx' ∈ indices (g.type v).shape)
    (h : (freeRun g v).get idx = (freeRun g v).get idx') : idx = idx' := by
  induction v using Nat.strong_induction_on generalizing idx idx' with
  | _ v ih =>
    rcases defOp_cases g v with hsrc | ⟨o, source, hv⟩ | ⟨name, free, operands, hop⟩
    · rw [freeRun, run_of_source hsrc] at h
      injection Set.singleton_injective h
    · have hbij := bijOn_of_relayout hv
      rw [freeRun, run_of_relayout hv] at h
      exact hbij.injOn (Finset.mem_coe.mpr hidx) (Finset.mem_coe.mpr hidx')
        (ih o (lt_of_relayout hv) (hbij.mapsTo hidx) (hbij.mapsTo hidx') h)
    · obtain ⟨o, ho⟩ := exists_mem_of_ne_nil _ (g.ok v _ hop).1
      obtain ⟨hlt, hshape⟩ := shape_of_uses ⟨name, free, operands, hop, ho⟩
      rw [freeRun, run_of_elementwise hop] at h
      have hargs := Term.free_inj (forall_mem_map.mpr fun o _ => freeRun_singleton o idx)
        (forall_mem_map.mpr fun o _ => freeRun_singleton o idx') h
      exact ih o hlt (hshape.symm ▸ hidx) (hshape.symm ▸ hidx') (map_inj_left.mp hargs o ho)

theorem source_eq_of_get_direct (hexplored : ∀ w, Relation.ReflTransGen g.Uses v w → g.Explored changeType w)
    (hshape : ∀ type, changeType = some type → type.shape = shape) (hidx : idx ∈ indices (g.type v).shape)
    (hidx' : idx' ∈ indices shape) (h : (freeRun g v).get idx = (direct g Term.free (freeRun g) shape v).get idx')
    (hw : Relation.ReflTransGen g.Uses v w) (hsrc : g.relayout w = some (o, source)) : source idx = idx' := by
  induction v using Nat.strong_induction_on with
  | _ v ih =>
    rcases hexplored v .refl with ⟨name, free, operands, hop⟩ | ⟨o', source', hv, htype⟩
    · rcases hw.cases_head with rfl | ⟨o', huses, hw⟩
      · rcases defOp_of_relayout hsrc with ⟨hop', -⟩ | ⟨perm, hop', -⟩
        · rw [hop] at hop'
          cases hop'
        · rw [hop] at hop'
          cases hop'
      · obtain ⟨hlt, hshape'⟩ := shape_of_uses huses
        obtain ⟨name', free', operands', hop', ho'⟩ := id huses
        rw [hop] at hop'
        obtain ⟨rfl, rfl, rfl⟩ := Op.elementwise.inj (some.inj hop')
        rw [freeRun, run_of_elementwise hop, direct_of_elementwise hop] at h
        have hargs := Term.free_inj (forall_mem_map.mpr fun o _ => freeRun_singleton o idx)
          (forall_mem_map.mpr fun o _ => direct_singleton shape o idx') h
        exact ih o' hlt (fun w hw => hexplored w (hw.head huses)) (hshape'.symm ▸ hidx)
          (map_inj_left.mp hargs o' ho') hw
    · rcases hw.cases_head with rfl | ⟨o'', huses, -⟩
      · cases some.inj (hv.symm.trans hsrc)
        rw [freeRun, run_of_relayout hv, direct_of_relayout hv] at h
        refine freeRun_inj ((bijOn_of_relayout hv).mapsTo hidx) ?_ h
        rwa [hshape _ htype]
      · exact absurd huses (not_uses_of_relayout hv)

end

/-! ### The result -/

section

variable [DecidableEq ε] {g : Graph κ ε} {fuel input : Nat} {op : ReduceOp g} {r : Rewritten κ ε}

theorem eq_of_fullReduce (h : FullReduceReshapeOrTranspose g fuel op = some (some r)) :
    ∃ input s, op.inputs = [input] ∧ op.dimensions.length = (g.type input).shape.length ∧
      explore g fuel [input] ⟨none, [], []⟩ = some (some s) ∧ rewrite g op.op input s = some r := by
  rw [FullReduceReshapeOrTranspose] at h
  split at h
  · rename_i input hinputs
    split at h
    · cases h
    · rename_i hrank
      obtain ⟨s, hexplore, hrewrite⟩ := map_eq_some_iff.mp h
      obtain ⟨s, rfl, hrewrite⟩ := bind_eq_some_iff.mp hrewrite
      exact ⟨input, s, hinputs, not_not.mp hrank, hexplore, hrewrite⟩
  · cases h

/-- Where the pattern rewrites, the reduction stays the same if and only if the reshapes and transposes that are
reached take the element of each index from one index. -/
theorem fullReduceReshapeOrTranspose_preserves_iff (h : FullReduceReshapeOrTranspose g fuel op = some (some r)) :
    Preserves g op r ↔ ∀ input ∈ op.inputs, g.SameLayout input := by
  obtain ⟨input, s, hinputs, hrank, hexplore, hrewrite⟩ := eq_of_fullReduce h
  obtain ⟨-, hreached, hfrontier⟩ := explore_spec hexplore
  have hexplored := hreached input mem_cons_self
  have hfrontier : ∀ v ∈ s.reshapeOrTransposes, ∃ o source, g.relayout v = some (o, source) ∧
      s.changeType = some (g.type o) := fun v hv => (hfrontier v hv).resolve_left not_mem_nil
  have hdims := op.lt input (hinputs ▸ mem_cons_self)
  rw [hinputs, forall_mem_singleton]
  -- both reductions take in all elements
  have hreduce : ∀ {α : Type} {interp : κ → List α → α} {env : Nat → Tensor α} (reducer : α → α → α)
      [Std.Commutative reducer] [Std.Associative reducer] (init : α), g.Runs interp env →
        ∃ changeType y z, s.changeType = some changeType ∧ reduce reducer init op.dimensions (env input) = some y ∧
            r.result interp env reducer init = some z ∧ y.shape = [] ∧ z.shape = [] ∧
              y.get [] = (indices (g.type input).shape).fold reducer init (env input).get ∧
                z.get [] = (indices changeType.shape).fold reducer init
                  (direct g interp env changeType.shape input).get := by
    intro α interp env reducer _ _ init henv
    obtain ⟨changeType, ys, hchange, hrun, hget, hshape, hrange⟩ :=
      rewrite_spec interp env hrewrite hfrontier fun v => (henv v).1
    have hinput := (henv input).1
    obtain ⟨y, hy, hyshape, hyget⟩ := reduce_all reducer init (x := env input) op.nodup
      (hinput.symm ▸ hdims) (hinput.symm ▸ hrank)
    have hnodup : r.dimensions.Nodup := hrange.symm ▸ nodup_range
    obtain ⟨z, hz, hzshape, hzget⟩ := reduce_all reducer init
      (x := direct g interp env changeType.shape input) hnodup (by
        rw [hrange, hshape]
        exact fun d hd => mem_range.mp hd) (by rw [hrange, hshape, length_range])
    refine ⟨changeType, y, z, hchange, hy, ?_, hyshape, hzshape, by rw [hyget, hinput], by rw [hzget, hshape]⟩
    rw [Rewritten.result, hrun, bind_some, hget, bind_some, hz]
  constructor
  · intro hpreserves v w o p source source' hv hw hsource hsource' idx hidx
    have hfree : g.Runs Term.free (freeRun g) := runs_run _
    let union : Set (Term κ) → Set (Term κ) → Set (Term κ) := fun a b => a ∪ b
    have : Std.Commutative union := ⟨Set.union_comm⟩
    have : Std.Associative union := ⟨Set.union_assoc⟩
    obtain ⟨changeType, y, z, hchange, hy, hz, hyshape, hzshape, hyget, hzget⟩ := hreduce union ∅ hfree
    obtain ⟨z', hz', hsame⟩ := hpreserves _ Term.free (freeRun g) union ∅ hfree input
      (hinputs ▸ mem_cons_self) y hy
    cases hz.symm.trans hz'
    have hat := hsame.get_eq [] (hzshape.symm ▸ mem_indices_nil.mpr rfl)
    rw [hyget, hzget] at hat
    obtain ⟨t, ht⟩ := freeRun_singleton (g := g) input idx
    have hmem : t ∈ (indices (g.type input).shape).fold union ∅ (freeRun g input).get :=
      Term.mem_fold_union.mpr ⟨idx, hidx, ht.symm ▸ Set.mem_singleton t⟩
    rw [← hat] at hmem
    obtain ⟨idx', hidx', hmem⟩ := Term.mem_fold_union.mp hmem
    obtain ⟨t', ht'⟩ := direct_singleton (g := g) changeType.shape input idx'
    rw [ht'] at hmem
    obtain rfl := Set.mem_singleton_iff.mp hmem
    have hshape : ∀ type, s.changeType = some type → type.shape = changeType.shape := by
      intro type htype
      rw [some.inj (htype.symm.trans hchange)]
    rw [source_eq_of_get_direct hexplored hshape hidx hidx' (ht.trans ht'.symm) hv hsource,
      source_eq_of_get_direct hexplored hshape hidx hidx' (ht.trans ht'.symm) hw hsource']
  · intro hlayout α interp env reducer _ _ init henv input' hinput' y' hy'
    have heq : input = input' := (mem_singleton.mp (hinputs ▸ hinput')).symm
    rw [← heq] at hy'
    obtain ⟨changeType, y, z, hchange, hy, hz, hyshape, hzshape, hyget, hzget⟩ := hreduce reducer init henv
    cases hy.symm.trans hy'
    refine ⟨z, hz, hzshape.trans hyshape.symm, fun idx hidx => ?_⟩
    rw [hzshape] at hidx
    obtain rfl := mem_indices_nil.mp hidx
    obtain ⟨w, o, source, hw, hrelayout⟩ := exists_relayout hexplored
    have hbij := bijOn_of_relayout hrelayout
    have htype : changeType.shape = (g.type o).shape := by
      rcases hexplored w hw with ⟨name, free, operands, hop⟩ | ⟨o', source', hw', htype⟩
      · rw [Graph.relayout, hop] at hrelayout
        cases hrelayout
      · obtain ⟨rfl, -⟩ := Prod.mk.inj (some.inj (hw'.symm.trans hrelayout))
        rw [some.inj (hchange.symm.trans htype)]
    rw [shape_of_reached hw, ← htype] at hbij
    have hdirect : ∀ idx ∈ indices (g.type input).shape, (env input).get idx =
        (direct g interp env changeType.shape input).get (source idx) :=
      get_direct henv hexplored fun w' o' source' hw' hrelayout' idx hidx =>
        hlayout w' w o' o source' source hw' hw hrelayout' hrelayout idx hidx
    rw [hzget, hyget, ← fold_bijOn reducer init hbij]
    exact (Finset.fold_congr hdirect).symm

end

/-! ### Products of two tables -/

section

inductive Name
  | multiply
  | add
deriving DecidableEq

/-- The elements of two tables are multiplied, which are a reshape of the one and a transpose of the other. -/
def mixed : Graph Name Unit where
  defOp
    | 2 => some (.reshape 0)
    | 3 => some (.transpose [1, 0] 1)
    | 4 => some (.elementwise .multiply true [2, 3])
    | _ => none
  type
    | 0 => ⟨[2, 3], ()⟩
    | 1 => ⟨[2, 3], ()⟩
    | 2 => ⟨[3, 2], ()⟩
    | 3 => ⟨[3, 2], ()⟩
    | 4 => ⟨[3, 2], ()⟩
    | _ => ⟨[], ()⟩
  users
    | 0 => [2]
    | 1 => [3]
    | 2 => [4]
    | 3 => [4]
    | 4 => [5]
    | _ => []
  ok v op hop := by
    split at hop
    · cases hop
      exact ⟨by decide, by decide⟩
    · cases hop
      exact ⟨by decide, by decide, by decide⟩
    · cases hop
      exact ⟨by decide, by decide⟩
    · cases hop

/-- The products of the elements of two transposes, each added to itself. -/
def transposes : Graph Name Unit where
  defOp
    | 2 => some (.transpose [1, 0] 0)
    | 3 => some (.transpose [1, 0] 1)
    | 4 => some (.elementwise .multiply true [2, 3])
    | 5 => some (.elementwise .add true [4, 4])
    | _ => none
  type
    | 0 => ⟨[2, 3], ()⟩
    | 1 => ⟨[2, 3], ()⟩
    | 2 => ⟨[3, 2], ()⟩
    | 3 => ⟨[3, 2], ()⟩
    | 4 => ⟨[3, 2], ()⟩
    | 5 => ⟨[3, 2], ()⟩
    | _ => ⟨[], ()⟩
  users
    | 0 => [2]
    | 1 => [3]
    | 2 => [4]
    | 3 => [4]
    | 4 => [5, 5]
    | 5 => [6]
    | _ => []
  ok v op hop := by
    split at hop
    · cases hop
      exact ⟨by decide, by decide, by decide⟩
    · cases hop
      exact ⟨by decide, by decide, by decide⟩
    · cases hop
      exact ⟨by decide, by decide⟩
    · cases hop
      exact ⟨by decide, by decide⟩
    · cases hop

def sumOfMixed : ReduceOp mixed := ⟨5, [4], [0, 1], by decide, by decide⟩

def sumOfTransposes : ReduceOp transposes := ⟨6, [5], [0, 1], by decide, by decide⟩

def rewrittenTransposes : Rewritten Name Unit :=
  ⟨[⟨.multiply, [.value 0, .value 1], ⟨[2, 3], ()⟩⟩, ⟨.add, [.created 0, .created 0], ⟨[2, 3], ()⟩⟩],
    .created 1, [0, 1]⟩

def rewrittenMixed : Rewritten Name Unit :=
  ⟨[⟨.multiply, [.value 0, .value 1], ⟨[2, 3], ()⟩⟩], .created 0, [0, 1]⟩

theorem fullReduceReshapeOrTranspose_preserves_sumOfTransposes :
    FullReduceReshapeOrTranspose transposes 10 sumOfTransposes = some (some rewrittenTransposes) ∧
      Preserves transposes sumOfTransposes rewrittenTransposes := by
  have hrewrite : FullReduceReshapeOrTranspose transposes 10 sumOfTransposes = some (some rewrittenTransposes) := rfl
  refine ⟨hrewrite, (fullReduceReshapeOrTranspose_preserves_iff hrewrite).mpr ?_⟩
  have hsource : ∀ v o source, transposes.relayout v = some (o, source) → source = transposeSource [1, 0] 2 := by
    intro v o source h
    match v with
    | 0 | 1 | 4 | 5 => cases h
    | 2 | 3 => exact (Prod.mk.inj (some.inj h)).2.symm
    | n + 6 => cases h
  intro input _ v w o p source source' _ _ hv hw idx _
  rw [hsource v o source hv, hsource w p source' hw]

/-- What the ops do to numbers. -/
def Name.meaning : Name → List Int → Int
  | multiply => List.prod
  | add => List.sum

def counting : Nat → Tensor Int
  | 0 | 1 => ⟨[2, 3], fun idx => (ravel [2, 3] idx : Nat)⟩
  | 2 => ⟨[3, 2], fun idx => (ravel [2, 3] (reshapeSource [3, 2] [2, 3] idx) : Nat)⟩
  | 3 => ⟨[3, 2], fun idx => (ravel [2, 3] (transposeSource [1, 0] 2 idx) : Nat)⟩
  | 4 => ⟨[3, 2], fun idx => [((ravel [2, 3] (reshapeSource [3, 2] [2, 3] idx) : Nat) : Int),
      (ravel [2, 3] (transposeSource [1, 0] 2 idx) : Nat)].prod⟩
  | _ => ⟨[], fun _ => 0⟩

theorem runs_counting : mixed.Runs Name.meaning counting := by
  intro v
  match v with
  | 0 | 1 | 5 => exact ⟨rfl, trivial⟩
  | 2 | 3 | 4 => exact ⟨rfl, rfl⟩
  | n + 6 => exact ⟨rfl, trivial⟩

/-- The sum of the products is 50, and 55 is what replaces it if both tables count from 0. -/
theorem not_fullReduceReshapeOrTranspose_preserves :
    FullReduceReshapeOrTranspose mixed 10 sumOfMixed = some (some rewrittenMixed) ∧
      ¬Preserves mixed sumOfMixed rewrittenMixed := by
  refine ⟨rfl, fun h => ?_⟩
  obtain ⟨z, hz, hsame⟩ := h Int Name.meaning counting (· + ·) 0 runs_counting 4 mem_cons_self _ rfl
  cases hz
  exact absurd (hsame.get_eq [] (by decide)) (by decide)

end

end EnzymeJax.FullReduce
