import EnzymeJax.Enzyme.Explore
import EnzymeJax.WhileLoopInfo

/-!
# Lowering the caches and gradients of a while pair

`WhileOpEnzymeOpsRemover` carries the gradients that a loop sets. It hoists the push of a value from outside the
body; the other pushes become rows of a tensor, one for each iteration, which the reverse loop counts down.
-/

namespace EnzymeJax

variable {α : Type*}

/-- A `stablehlo.while`. Both regions have the same block arguments. -/
structure LoopOp (α : Type*) where
  operands : List Value
  args : List Value
  condUses : List Value
  cond : List α → Bool
  body : List (BlockOp α)
  returns : List Value
  results : List Value

namespace LoopOp

/-- The values a region sees, with carried values `p.1`. -/
def enter (op : LoopOp α) (p : List α × State α) : State α :=
  p.2.withValues (assign p.2.values op.args p.1)

def test (op : LoopOp α) (p : List α × State α) : Bool :=
  op.cond (op.condUses.map (op.enter p).values)

/-- One iteration. What the body defines is not visible in the next but for what it returns. -/
def iteration (op : LoopOp α) (p : List α × State α) : Option (List α × State α) :=
  (runBlock op.body (op.enter p)).map fun s =>
    (op.returns.map s.values, s.withValues p.2.values)

def exec (op : LoopOp α) (n : Nat) (s : State α) : Option (State α) :=
  (Loop.steps op.test op.iteration n (op.operands.map s.values, s)).map fun p =>
    p.2.withValues (assign p.2.values op.results p.1)

def bodyEnd (op : LoopOp α) (k : Nat) (s : State α) : Option (State α) :=
  (Loop.enters op.test op.iteration k (op.operands.map s.values, s)).bind fun p =>
    runBlock op.body (op.enter p)

end LoopOp

structure RewrittenLoop (α : Type*) where
  before : List (BlockOp α)
  op : LoopOp α
  after : List (BlockOp α)

namespace RewrittenLoop

def exec (r : RewrittenLoop α) (n : Nat) (s : State α) : Option (State α) :=
  (runBlock r.before s).bind fun s => (r.op.exec n s).bind (runBlock r.after)

def bodyEnd (r : RewrittenLoop α) (k : Nat) (s : State α) : Option (State α) :=
  (runBlock r.before s).bind (r.op.bodyEnd k)

/-- The rewriting of an operation that was rewritten before. -/
def around (outer inner : RewrittenLoop α) : RewrittenLoop α :=
  ⟨outer.before ++ inner.before, inner.op, inner.after ++ outer.after⟩

end RewrittenLoop

/-! ### Gradients -/

def setVector (l : List Nat) : List Nat :=
  l.foldl (fun gs g => if g ∈ gs then gs else gs ++ [g]) []

def getGradients (ops : List (BlockOp α)) : List Nat :=
  ops.filterMap fun op => match op with
    | .get _ g => some g
    | _ => none

namespace LoopOp

def updatedGradients (op : LoopOp α) : List Nat := setVector (setGradients op.body)

/-- The value of a gradient on entering the body. -/
def gradientStart (op : LoopOp α) (g : Nat) : Value :=
  if g ∈ op.updatedGradients then .gradientArg g else .outerGet g

/-- Gets of gradients that are not set move before the loop, the others become carried values. -/
def promoteGradients (op : LoopOp α) : RewrittenLoop α :=
  let p := promote op.body id op.gradientStart
  { before := ((getGradients op.body).filter (· ∉ op.updatedGradients) ++ op.updatedGradients).map
      fun g => .get (.outerGet g) g
    op :=
      { op with
        operands := op.operands ++ op.updatedGradients.map .outerGet
        args := op.args ++ op.updatedGradients.map .gradientArg
        body := p.ops
        returns := op.returns.map p.rename ++ op.updatedGradients.map p.current
        results := op.results ++ op.updatedGradients.map .gradient }
    after := op.updatedGradients.map fun g => .set g (.gradient g) }

end LoopOp

/-! ### Rows -/

/-- Contents of tensors: integers, and tensors whose first dimension counts `rows`. -/
class Contents (α : Type*) extends Zero α where
  ofInt : Int → α
  toInt : α → Int
  ofRows : List α → α
  rows : α → List α
  toInt_ofInt : ∀ n, toInt (ofInt n) = n
  rows_ofRows : ∀ l, rows (ofRows l) = l

attribute [simp] Contents.toInt_ofInt Contents.rows_ofRows

section

open Contents

variable [Contents α]

/-- A start index is clamped so that one row fits. -/
def rowIndex (numRows : Nat) (i : Int) : Nat := (min i (numRows - 1)).toNat

/-- `dynamic_update_slice` with one row, at start indices `index, 0, …, 0`. -/
def updateRow (buffer row index : α) : α :=
  ofRows ((rows buffer).set (rowIndex (rows buffer).length (toInt index)) row)

/-- `dynamic_slice` of one row, at start indices `index, 0, …, 0`. -/
def sliceRow (buffer index : α) : α :=
  (rows buffer).getD (rowIndex (rows buffer).length (toInt index)) 0

/-! ### Caches -/

/-- What is known of the bounds of a loop: the constants among them, and an upper bound of the limit
from its defining operation. -/
structure LoopInfo where
  constStart : Option Int
  constLimit : Option Int
  constStep : Option Int
  limit : Value
  limitMax : Option Int

namespace LoopInfo

def isConstant (info : LoopInfo) : Bool :=
  info.constStart.isSome && info.constLimit.isSome && info.constStep.isSome

/-- The extent of the buffers; `none` is dynamic. -/
def numIters (info : LoopInfo) : Option Int :=
  match info.constStart, info.constLimit, info.constStep with
  | some start, some limit, some step => (WhileLoopInfo.mk start limit step true).getConstantNumIters
  | some start, none, some step =>
    match info.limitMax with
    | some limitMax =>
      if 0 < step ∧ start < limitMax then some ((limitMax - start + step - 1).tdiv step) else none
    | none => none
  | _, _, _ => none

/-- `(limit - start) / step`, needed with a start of zero and a step of one only. -/
def getNumIters (info : LoopInfo) : BlockOp α :=
  .pure .numIters [info.limit] fun l => ofInt ((toInt (l.headD 0) - 0).tdiv 1)

end LoopInfo

/-- An entry of the caches, with the value pushed. -/
abbrev CachedValue := CacheInfo × Value

namespace LoopOp

/-- The entries of the pushes. -/
def pushedCaches (op : LoopOp α) : List (Value × CacheInfo) := (pushes op.body).foldl addPush []

/-- The counter from 0 up, within the loop. -/
def inductionVariable (info : LoopInfo) (op : LoopOp α) : Option Value :=
  if info.constStart = some 0 ∧ info.constStep = some 1 then op.args.head? else none

def definedInBody (op : LoopOp α) (v : Value) : Bool := v ∈ op.args ∨ v ∈ definedIn op.body

def cachedValues (entries : List (Value × CacheInfo)) (op : LoopOp α) : List CachedValue :=
  entries.filterMap fun e => ((pushes op.body).lookup e.2.cache).map (e.2, ·)

def lowerPush (iv : Option Value) (buffers : List Nat) : BlockOp α → Option (BlockOp α)
  | .push c v =>
    if c ∈ buffers then
      some (.pure (.updated c) (.cacheArg c :: v :: iv.toList) fun l =>
        updateRow (l.getD 0 0) (l.getD 1 0) (l.getD 2 0))
    else none
  | op => some op

def initValue (info : LoopInfo) (c : Nat) : BlockOp α :=
  match info.numIters with
  | some n => .pure (.dummy c) [] fun _ => ofRows (List.replicate n.toNat 0)
  | none => .pure (.dummy c) [.numIters] fun l =>
      ofRows (List.replicate (toInt (l.headD 0)).toNat 0)

/-- The pushes of values from outside move before the loop, the others update a carried buffer. -/
def lowerCaches (info : LoopInfo) (iv : Option Value) (inside hoisted : List CachedValue)
    (op : LoopOp α) : RewrittenLoop α :=
  let buffers := inside.map fun e => e.1.cache
  { before := (hoisted.map fun e => .push e.1.cache e.2) ++
      (if inside ≠ [] ∧ info.numIters = none then [info.getNumIters] else []) ++ buffers.map (initValue info)
    op :=
      { op with
        operands := op.operands ++ buffers.map .dummy
        args := op.args ++ buffers.map .cacheArg
        body := op.body.filterMap (lowerPush iv buffers)
        returns := op.returns ++ buffers.map .updated
        results := op.results ++ buffers.map .cache }
    after := buffers.map fun c => .push c (.cache c) }

def inside (op : LoopOp α) : List CachedValue :=
  (op.promoteGradients.op.cachedValues op.pushedCaches).filter
    (op.promoteGradients.op.definedInBody ·.2)

def hoisted (op : LoopOp α) : List CachedValue :=
  (op.promoteGradients.op.cachedValues op.pushedCaches).filter
    (!op.promoteGradients.op.definedInBody ·.2)

/-- `removeEnzymeOps` on the loop itself; it fails without an induction variable for a buffer. -/
def removeEnzymeOps (info : LoopInfo) (op : LoopOp α) : Option (RewrittenLoop α) :=
  if op.updatedGradients = [] ∧ op.pushedCaches = [] then some ⟨[], op, []⟩
  else if op.inside ≠ [] ∧ op.inductionVariable info = none then none
  else
    some (op.promoteGradients.around
      (lowerCaches info (op.inductionVariable info) op.inside op.hoisted op.promoteGradients.op))

def lowerPop (inside hoisted : List CachedValue) : BlockOp α → BlockOp α
  | .pop x c =>
    match hoisted.find? (c ∈ ·.1.members) with
    | some e => .pure x [.cache e.1.cache] fun l => l.headD 0
    | none =>
      match inside.find? (c ∈ ·.1.members) with
      | some e => .pure x [.cache e.1.cache, .counter] fun l => sliceRow (l.getD 0 0) (l.getD 1 0)
      | none => .pop x c
  | op => op

/-- The reverse loop counts down from the number of iterations less one. -/
def counterStart (info : LoopInfo) : List (BlockOp α) :=
  if info.isConstant then
    [.pure .counterStart [] fun _ => ofInt (info.numIters.getD 0 - 1)]
  else
    [info.getNumIters, .pure .counterStart [.numIters] fun l => ofInt (toInt (l.headD 0) - 1)]

/-- What `removeEnzymeOps` on the forward loop makes of the reverse loop. -/
def lowerPops (info : LoopInfo) (counts : Bool) (inside hoisted : List CachedValue)
    (reverse : LoopOp α) : RewrittenLoop α :=
  let body := reverse.body.map (lowerPop inside hoisted)
  let popsBefore := hoisted.map fun e => .pop (.cache e.1.cache) e.1.cache
  let popsAfter := inside.map fun e => .pop (.cache e.1.cache) e.1.cache
  if counts then
    { before := popsBefore ++ counterStart info ++ popsAfter
      op :=
        { reverse with
          operands := reverse.operands ++ [.counterStart]
          args := reverse.args ++ [.counter]
          body := body ++ [.pure .nextCounter [.counter] fun l => ofInt (toInt (l.headD 0) - 1)]
          returns := reverse.returns ++ [.nextCounter]
          results := reverse.results ++ [.counter] }
      after := [] }
  else
    { before := popsBefore ++ popsAfter, op := { reverse with body := body }, after := [] }

end LoopOp

/-- A forward loop and the reverse loop that pops what it pushes. -/
structure LoopPair (α : Type*) where
  forward : LoopOp α
  reverse : LoopOp α
  info : LoopInfo
  reverseInfo : LoopInfo

namespace LoopPair

def lowerForward (pair : LoopPair α) : Option (RewrittenLoop α) :=
  pair.forward.removeEnzymeOps pair.info

/-- The pops are lowered with the forward loop, the gradients of the reverse loop on their own. -/
def lowerReverse (pair : LoopPair α) : Option (RewrittenLoop α) :=
  let counts := (pair.forward.inductionVariable pair.info).isSome &&
    !pair.forward.pushedCaches.isEmpty
  let r := pair.reverse.lowerPops pair.info counts pair.forward.inside pair.forward.hoisted
  (r.op.removeEnzymeOps pair.reverseInfo).map fun r' =>
    { before := r.before ++ r'.before, op := r'.op, after := r'.after }

end LoopPair

end

end EnzymeJax
