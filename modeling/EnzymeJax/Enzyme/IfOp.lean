import EnzymeJax.Enzyme.Block

/-!
# Lowering the caches and gradients of an if pair

`IfOpEnzymeOpsRemover` makes every push of a branch a result of the if, with a dummy from the other branch, pushes
it after the if, and pops it before the reverse if. `removalBlockExplore` and `CacheInfo` come from Enzyme:
`Explores` is what is relied on.
-/

namespace EnzymeJax

variable {α : Type*}

structure Branch (α : Type*) where
  ops : List (BlockOp α)
  returns : List Value

structure IfOp (α : Type*) where
  pred : Value
  trueBranch : Branch α
  falseBranch : Branch α
  results : List Value

def IfOp.branch (op : IfOp α) : Bool → Branch α
  | true => op.trueBranch
  | false => op.falseBranch

/-- The values a block reads. -/
def Branch.uses (b : Branch α) : List Value := b.ops.flatMap BlockOp.operands ++ b.returns

/-- What a branch defines is not visible after the if, but for what it returns. -/
def IfOp.exec (isTrue : α → Bool) (op : IfOp α) (s : State α) : Option (State α) :=
  let b := op.branch (isTrue (s.values op.pred))
  (runBlock b.ops s).map fun s' =>
    s'.withValues (assign s.values op.results (b.returns.map s'.values))

/-! ### The lowering -/

/-- The caches of one pushed value: their pops stand for what is popped from `cache`. -/
structure CacheInfo where
  cache : Nat
  members : List Nat

/-- What `removalBlockExplore` leaves: the block without gets and sets, the gradients to be read before it, the
values of the gradients, and the gradients set and values pushed so far. -/
structure Explored (α : Type*) where
  branch : Branch α
  outerGets : List Nat
  mapping : Nat → Option Value
  gradients : List Nat
  pushedCaches : List (Value × CacheInfo)

abbrev RemovalBlockExplore (α : Type*) :=
  Branch α → List Nat → List (Value × CacheInfo) → Explored α

def IfOp.explored (removalBlockExplore : RemovalBlockExplore α) (op : IfOp α) : Bool → Explored α
  | true => removalBlockExplore op.trueBranch [] []
  | false =>
    let t := removalBlockExplore op.trueBranch [] []
    removalBlockExplore op.falseBranch t.gradients t.pushedCaches

/-- What the lowering relies on: the block left computes the same, the last value of a gradient is in the mapping,
and there is one entry for each pushed value with the caches it was pushed to. -/
structure Explores (b : Branch α) (gradients : List Nat) (pushedCaches : List (Value × CacheInfo))
    (e : Explored α) : Prop where
  mem_gradients : ∀ g, g ∈ e.gradients ↔ g ∈ gradients ∨ ∃ v, .set g v ∈ b.ops
  keys_nodup : (pushedCaches.map Prod.fst).Nodup → (e.pushedCaches.map Prod.fst).Nodup
  mem_members : ∀ c v, (∃ info, (v, info) ∈ e.pushedCaches ∧ c ∈ info.members) ↔
    (∃ info, (v, info) ∈ pushedCaches ∧ c ∈ info.members) ∨ (c, v) ∈ pushes e.branch.ops
  cache_mem : (∀ p ∈ pushedCaches, p.2.cache ∈ p.2.members) → ∀ p ∈ e.pushedCaches, p.2.cache ∈ p.2.members
  pushes_fst : (pushes e.branch.ops).map Prod.fst = (pushes b.ops).map Prod.fst
  definedIn_source : ∀ x ∈ definedIn e.branch.ops, x.IsSource
  pushes_snd : ∀ c v, (c, v) ∈ pushes e.branch.ops → v.IsSource ∨ ∃ g ∈ e.outerGets, v = .outerGet g
  run : ∀ s s' t, runBlock b.ops s = some s' → (∀ x ∈ b.uses, t.values x = s.values x) →
    t.gradients = s.gradients → (∀ g ∈ e.outerGets, t.values (.outerGet g) = s.gradients g) →
    ∃ t', runBlock (erasePushes e.branch.ops) t = some t' ∧ t'.gradients = t.gradients ∧
      t'.caches = t.caches ∧ e.branch.returns.map t'.values = b.returns.map s'.values ∧
      (∀ g v, e.mapping g = some v → t'.values v = s'.gradients g) ∧
      (∀ g, e.mapping g = none → s'.gradients g = s.gradients g) ∧
      ∀ c u, (c, u) ∈ pushes b.ops → ∃ v, (c, v) ∈ pushes e.branch.ops ∧ t'.values v = s'.values u

structure Rewritten (α : Type*) where
  before : List (BlockOp α)
  op : IfOp α
  after : List (BlockOp α)

def Rewritten.exec (isTrue : α → Bool) (r : Rewritten α) (s : State α) : Option (State α) :=
  (runBlock r.before s).bind fun s => (r.op.exec isTrue s).bind (runBlock r.after)

section

variable [Zero α] (removalBlockExplore : RemovalBlockExplore α)

namespace IfOp

def gradients (op : IfOp α) : List Nat := (op.explored removalBlockExplore false).gradients

def pushedCaches (op : IfOp α) : List (Value × CacheInfo) :=
  (op.explored removalBlockExplore false).pushedCaches

/-- The new branch: a gradient that it has no value for is read before the if, and a pushed value
that it does not define is a dummy. -/
def newBranch (op : IfOp α) (b : Bool) : Branch α :=
  let e := op.explored removalBlockExplore b
  { ops := erasePushes e.branch.ops
    returns := e.branch.returns ++ ((op.gradients removalBlockExplore).map fun g => (e.mapping g).getD (.outerGet g)) ++
      (op.pushedCaches removalBlockExplore).map fun p =>
        if p.1 ∈ definedIn e.branch.ops then p.1 else .dummy p.2.cache }

/-- The gradients read before the if. -/
def outerGets (op : IfOp α) : List Nat :=
  (op.explored removalBlockExplore true).outerGets ++ (op.explored removalBlockExplore false).outerGets ++
      (op.gradients removalBlockExplore).filter fun g =>
        ((op.explored removalBlockExplore true).mapping g).isNone ||
          ((op.explored removalBlockExplore false).mapping g).isNone

/-- `removeEnzymeOps` on the if itself. With nothing to do it rebuilds the same if. -/
def removeEnzymeOps (op : IfOp α) : Rewritten α where
  before := ((op.outerGets removalBlockExplore).map fun g => .get (.outerGet g) g) ++
    (op.pushedCaches removalBlockExplore).map fun p => .pure (.dummy p.2.cache) [] fun _ => 0
  op :=
    { pred := op.pred
      trueBranch := op.newBranch removalBlockExplore true
      falseBranch := op.newBranch removalBlockExplore false
      results := op.results ++ (op.gradients removalBlockExplore).map .gradient ++
        (op.pushedCaches removalBlockExplore).map fun p => .cache p.2.cache }
  after := ((op.gradients removalBlockExplore).map fun g => .set g (.gradient g)) ++
    (op.pushedCaches removalBlockExplore).map fun p => .push p.2.cache (.cache p.2.cache)

/-- The pop of a pushed value before the reverse if, and the replacement of the pops in it. -/
def hoistPop (reverse : IfOp α) (info : CacheInfo) : List (BlockOp α) :=
  .pop (.cache info.cache) info.cache ::
    ((pops reverse.trueBranch.ops ++ pops reverse.falseBranch.ops).filter
      fun q => q.1 ∈ info.members).map fun q => .pure q.2 [.cache info.cache] fun l => l.headD 0

omit [Zero α] in
def erasePops (op : IfOp α) : IfOp α where
  pred := op.pred
  trueBranch := ⟨EnzymeJax.erasePops op.trueBranch.ops, op.trueBranch.returns⟩
  falseBranch := ⟨EnzymeJax.erasePops op.falseBranch.ops, op.falseBranch.returns⟩
  results := op.results

end IfOp

/-- A forward if and the reverse if that pops what it pushes. -/
structure IfPair (α : Type*) where
  forward : IfOp α
  reverse : IfOp α

namespace IfPair

def lowerForward (pair : IfPair α) : Rewritten α := pair.forward.removeEnzymeOps removalBlockExplore

/-- The pops are hoisted with the forward if, the gradients of the reverse if are lowered on their
own. -/
def lowerReverse (pair : IfPair α) : Rewritten α :=
  let r := pair.reverse.erasePops.removeEnzymeOps removalBlockExplore
  { r with before := ((pair.forward.pushedCaches removalBlockExplore).flatMap fun p =>
      pair.reverse.hoistPop p.2) ++ r.before }

end IfPair

end

end EnzymeJax
