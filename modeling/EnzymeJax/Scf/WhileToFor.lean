import EnzymeJax.Library.Tensor
import EnzymeJax.Scf.Dialect

/-!
# While loops with a counter

`MoveWhileToFor` looks for a carried value that is stepped by a value from outside and compared with another one,
possibly together with a second condition. The bounds of the new loop come from the start of the counter and what
it is compared with, by the predicate and the sign of the step.
-/

namespace EnzymeJax.Scf

variable {W D : Type}

def swapPredicate : CmpIPredicate → CmpIPredicate
  | .slt => .sgt
  | .sle => .sge
  | .sgt => .slt
  | .sge => .sle
  | .ult => .ugt
  | .ule => .uge
  | .ugt => .ult
  | .uge => .ule
  | p => p

/-- An `int` of C++. -/
def toCInt (n : Int) : Int := n.bmod (2 ^ 32)

def definingOp (ops : List (Op W D)) (v : Value) : Option (Op W D) := ops.find? fun op => v ∈ op.results

def matchConstant (ops : List (Op W D)) (v : Value) : Option Int :=
  match definingOp ops v with
  | some (.prim (.constant _ (.int n)) _ []) => some n
  | _ => none

/-- A constant of `arith` that is negative. -/
def isNegativeConstant (ops : List (Op W D)) (v : Value) : Bool :=
  match definingOp ops v with
  | some (.prim (.constant true (.int n)) _ []) => n < 0
  | _ => false

def isOne (ops : List (Op W D)) (v : Value) : Bool :=
  match definingOp ops v with
  | some (.prim (.constant _ (.int n)) _ []) => n = 1
  | some (.prim (.constant _ (.bool b)) _ []) => b
  | _ => false

/-- What is negated, and whether it is. The search does not end at an exclusive or with anything but one. -/
def lookThroughNot (ops : List (Op W D)) : Nat → Value → Bool → Option (Value × Bool)
  | 0, _, _ => none
  | fuel + 1, v, negate =>
    match definingOp ops v with
    | some (.prim .xorI _ [a, b]) => if isOne ops b then lookThroughNot ops fuel a !negate else none
    | _ => some (v, negate)

def Value.isResult : Value → Bool
  | .result _ => true
  | _ => false

/-- How the counter is stepped: its number among the carried values, what is added, and the type. -/
structure Stepping where
  indVar : Nat
  step : Value
  type : IntType

structure CmpIOp where
  type : IntType
  predicate : CmpIPredicate
  lhs : Value
  rhs : Value

inductive Detected
  | next
  | stop
  | found (stepping : Stepping) (comparingUpdated : Bool)

structure WhileToForHelper where
  cmpIOp : CmpIOp
  compareIndex : Bool
  stepping : Stepping
  comparingUpdated : Bool
  negativeStep : Bool
  lb : Value
  lbType : IntType
  lb_addOne : Bool
  lb_addStep : Bool
  lb_subStep : Bool
  ub : Value
  ubType : IntType
  ub_addOne : Bool
  ub_addStep : Bool
  ub_cloneMove : Bool

section

variable (loop : WhileOp W D) (outsideOps : List (Op W D))

def visibleOps : List (Op W D) := outsideOps ++ loop.beforeOps ++ loop.afterOps

/-- The value that is stepped where the other condition is true. -/
def steppedValue (ops : List (Op W D)) (beforeArg : Option Nat) (steppingVal lookThrough : Value) : Option Value := do
  let (lookThrough, negateLookThrough) ← lookThroughNot ops (ops.length + 1) lookThrough false
  match definingOp ops steppingVal with
  | some (.ifOp results condition _ thenYield _ elseYield) => do
    let (_, negateLookThrough) ← lookThroughNot ops (ops.length + 1) condition negateLookThrough
    if condition = lookThrough then
      match beforeArg.bind fun p => loop.yields[p]?.bind fun y => results.findIdx? fun r => r = y with
      | some r => (if negateLookThrough then elseYield else thenYield)[r]?
      | none => some steppingVal
    else some steppingVal
  | some (.prim .select _ [condition, trueValue, falseValue]) => do
    let (_, negateLookThrough) ← lookThroughNot ops (ops.length + 1) condition negateLookThrough
    if condition = lookThrough then some (if negateLookThrough then falseValue else trueValue)
    else some steppingVal
  | _ => some steppingVal

/-- The counter that an operand of the addition is. -/
def steppedArg (beforeArg : Option Nat) (steppingVal : Value) (inBefore : Bool) (operand : Value) : Option Nat :=
  match inBefore, beforeArg, operand with
  | true, some p, v => if v = .arg .before p then some p else none
  | true, none, .arg .before p =>
    match loop.yields[p]? with
    | some (.arg .after r) => if loop.condArgs[r]? = some steppingVal then some p else none
    | _ => none
  | false, some p, .arg .after r => if loop.condArgs[r]? = some (.arg .before p) then some p else none
  | _, _, _ => none

def considerStep (ops : List (Op W D)) (beforeArg : Option Nat) (steppingVal : Value) (inBefore : Bool)
    (lookThrough : Option Value) : Option (Option Stepping) :=
  let stepped := match lookThrough with
    | some l => steppedValue loop ops beforeArg steppingVal l
    | none => some steppingVal
  stepped.map fun steppingVal =>
    match definingOp ops steppingVal with
    | some (.prim (.addI type) _ [a, b]) =>
      ((steppedArg loop beforeArg steppingVal inBefore a).map fun p => ⟨p, b, type⟩).or
        ((steppedArg loop beforeArg steppingVal inBefore b).map fun p => ⟨p, a, type⟩)
    | _ => none

def Detected.ofStep (comparingUpdated : Bool) : Option Stepping → Detected
  | some stepping => .found stepping comparingUpdated
  | none => .next

def isAddI (ops : List (Op W D)) (v : Value) : Bool :=
  match definingOp ops v with
  | some (.prim (.addI _) _ _) => true
  | _ => false

/-- Whether an operand of the comparison is the counter, or the counter that is stepped. -/
def detect (opVal : Value) (lookThrough : Option Value) : Option Detected :=
  let ops := visibleOps loop outsideOps
  match opVal with
  | .arg .before p =>
    match loop.yields[p]? with
    | some (.arg .after r) =>
      match loop.condArgs[r]? with
      | some steppingVal => (considerStep loop ops (some p) steppingVal true lookThrough).map (.ofStep false)
      | none => none
    | some (.arg _ _) => some .next
    | some pval =>
      match definingOp ops pval with
      | some (.ifOp results _ thenOps thenYield elseOps elseYield) => do
        let r ← results.findIdx? fun v => v = pval
        let thenVal ← thenYield[r]?
        let elseVal ← elseYield[r]?
        -- whichever branch adds something, whether it is taken or not
        if isAddI (ops ++ thenOps) thenVal then
          (considerStep loop (ops ++ thenOps) (some p) thenVal false lookThrough).map (.ofStep false)
        else if isAddI (ops ++ elseOps) elseVal then
          (considerStep loop (ops ++ elseOps) (some p) elseVal false lookThrough).map (.ofStep false)
        else some .stop
      | _ => (considerStep loop ops (some p) pval false lookThrough).map (.ofStep false)
    | none => none
  | .arg _ _ => some .next
  | opVal => (considerStep loop ops none opVal true lookThrough).map (.ofStep true)

/-- The operand without its extension. -/
def withoutExt (v : Value) : Value :=
  match definingOp (visibleOps loop outsideOps) v with
  | some (.prim .extSI _ [a]) => a
  | _ => v

/-- Whether the end is made by an operation in the loop, that has operands from outside. -/
def cloneMove (cmpIOp : CmpIOp) (cmpEnd : Value) : Option Bool :=
  if loop.isInside cmpEnd then
    match definingOp (visibleOps loop outsideOps) cmpIOp.rhs with
    | some op => if op.operands.all (fun v => !loop.isInside v) ∧ op.results.length = 1 then some true else none
    | none => none
  else some false

/-- From the start of the counter up to the end. -/
def WhileToForHelper.up (cmpIOp : CmpIOp) (compareIndex : Bool) (stepping : Stepping)
    (comparingUpdated negativeStep : Bool) (cmpStart cmpEnd : Value) (ub_cloneMove : Bool) : WhileToForHelper :=
  { cmpIOp, compareIndex, stepping, comparingUpdated, negativeStep, lb := cmpStart, lbType := stepping.type,
    lb_addOne := false, lb_addStep := comparingUpdated, lb_subStep := false, ub := cmpEnd, ubType := cmpIOp.type,
    ub_addOne := negativeStep, ub_addStep := false, ub_cloneMove }

/-- From the end up to the start of the counter. -/
def WhileToForHelper.down (cmpIOp : CmpIOp) (compareIndex : Bool) (stepping : Stepping)
    (comparingUpdated negativeStep : Bool) (cmpStart cmpEnd : Value) (ub_cloneMove : Bool) : WhileToForHelper :=
  { cmpIOp, compareIndex, stepping, comparingUpdated, negativeStep, lb := cmpEnd, lbType := cmpIOp.type,
    lb_addOne := false, lb_addStep := false, lb_subStep := false, ub := cmpStart, ubType := stepping.type,
    ub_addOne := negativeStep, ub_addStep := comparingUpdated, ub_cloneMove }

/-- The bounds for what the comparison says. `uninitialized` is what the code reads where a bound is not constant. -/
def checkPredicate (cmpIOp : CmpIOp) (compareIndex : Bool) (stepping : Stepping) (comparingUpdated : Bool)
    (uninitialized : Int) : Option WhileToForHelper :=
  let ops := visibleOps loop outsideOps
  let cmpEnd := if compareIndex then cmpIOp.lhs else cmpIOp.rhs
  let pred := if compareIndex then swapPredicate cmpIOp.predicate else cmpIOp.predicate
  let stepInt := ((matchConstant ops stepping.step).map toCInt).getD 0
  let negativeStep := isNegativeConstant ops stepping.step
  loop.inits[stepping.indVar]?.bind fun cmpStart =>
  (cloneMove loop outsideOps cmpIOp cmpEnd).bind fun ub_cloneMove =>
  let up := WhileToForHelper.up cmpIOp compareIndex stepping comparingUpdated negativeStep cmpStart cmpEnd ub_cloneMove
  let down := WhileToForHelper.down cmpIOp compareIndex stepping comparingUpdated negativeStep cmpStart cmpEnd ub_cloneMove
  match pred with
  | .slt | .ult => if stepInt < 0 then none else some up
  | .sle | .ule => if stepInt < 0 then none else some { up with ub_addOne := true }
  | .sge | .uge => if 0 < stepInt then none else some down
  | .sgt | .ugt => if 0 < stepInt then none else some { down with lb_addOne := true }
  | .ne =>
    match matchConstant ops stepping.step with
    | none => none
    | some c =>
      let stepInt := toCInt c
      let constants := (matchConstant ops cmpStart).bind fun l => (matchConstant ops cmpEnd).map fun u =>
        (toCInt l, toCInt u)
      let distance := (constants.map fun (l, u) => toCInt (u - l)).getD uninitialized
      if stepInt = 1 ∨ stepInt = -1 ∨ (stepInt ≠ 0 ∧ distance % stepInt = 0) then
        if stepInt < 0 ∧ constants.all (fun (l, u) => u < l) then
          some { down with lb_subStep := comparingUpdated, ub_addOne := false, ub_addStep := false }
        else if 0 < stepInt ∧ constants.all (fun (l, u) => l < u) then some up
        else none
      else none
  | .eq => none

/-- The first operand that is the counter, and what is found of it. -/
def detectOperand (cmpIOp : CmpIOp) (lookThrough : Option Value) : Option (Bool × Detected) :=
  (detect loop outsideOps (withoutExt loop outsideOps cmpIOp.lhs) lookThrough).bind fun
    | .next => (detect loop outsideOps (withoutExt loop outsideOps cmpIOp.rhs) lookThrough).map (true, ·)
    | detected => some (false, detected)

def computeLegality (cmpIOp : CmpIOp) (lookThrough : Option Value) (uninitialized : Int) :
    Option (Option WhileToForHelper) :=
  (detectOperand loop outsideOps cmpIOp lookThrough).map fun (compareIndex, detected) =>
    match detected with
    | .found stepping comparingUpdated =>
      if stepping.step.isResult ∧ loop.isInside stepping.step then none
      else checkPredicate loop outsideOps cmpIOp compareIndex stepping comparingUpdated uninitialized
    | _ => none

end

namespace WhileToForHelper

variable (helper : WhileToForHelper)

/-- The bounds as they are created, before they are of one type. -/
def bounds : Expr × Expr × Expr :=
  let step := Expr.value helper.stepping.type helper.stepping.step
  let lb := Expr.value helper.lbType helper.lb
  let lb := if helper.lb_addOne then lb.addI (.constant lb.type 1) else lb
  let lb := if helper.lb_addStep then lb.addI step else lb
  let lb := if helper.lb_subStep then lb.subI step else lb
  let ub := Expr.value helper.ubType helper.ub
  let ub := if helper.ub_addOne then ub.addI (.constant ub.type 1) else ub
  let ub := if helper.ub_addStep then ub.addI step else ub
  let newStep := if helper.negativeStep then Expr.subI (.constant step.type 0) step else step
  (lb, ub, newStep)

def prepareFor : Expr × Expr × Expr :=
  let (lb, ub, step) := helper.bounds
  if helper.stepping.type = lb.type ∧ ub.type = lb.type then (lb, ub, step)
  else (.indexCast lb, .indexCast ub, .indexCast step)

end WhileToForHelper

namespace MoveWhileToFor

variable (loop : WhileOp W D) (outsideOps : List (Op W D))

def cmpOf (v : Value) : Option CmpIOp :=
  match definingOp (visibleOps loop outsideOps) v with
  | some (.prim (.cmpI type predicate) _ [a, b]) => some ⟨type, predicate, a, b⟩
  | _ => none

/-- The legal comparison among the two sides of a conjunction, and the other side. -/
def legalSide (uninitialized : Int) (side other : Value) : Option (Option (WhileToForHelper × Option Value)) :=
  match cmpOf loop outsideOps side with
  | none => some none
  | some cmpIOp => (computeLegality loop outsideOps cmpIOp (some other) uninitialized).map fun helper =>
      helper.map (·, some other)

def legalHelper (uninitialized : Int) : Option (WhileToForHelper × Option Value) :=
  match definingOp (visibleOps loop outsideOps) loop.condition with
  | some (.prim (.cmpI type predicate) _ [a, b]) =>
    ((computeLegality loop outsideOps ⟨type, predicate, a, b⟩ none uninitialized).bind id).map (·, none)
  | some (.prim .andI _ [a, b]) =>
    (legalSide loop outsideOps uninitialized a b).bind fun
      | some legal => some legal
      | none => (legalSide loop outsideOps uninitialized b a).bind id
  | _ => none

/-- What a result is before the first iteration. -/
def newArg (arg : Value) : Option Init :=
  match arg with
  | .arg .before k => loop.inits[k]?.map .value
  | .arg _ _ => some .poison
  | v =>
    match definingOp (visibleOps loop outsideOps) v with
    | some (.prim .select _ [_, trueValue, falseValue]) =>
      match trueValue, falseValue with
      | .arg _ k, _ => loop.inits[k]?.map .value
      | _, .arg _ k => loop.inits[k]?.map .value
      | _, _ => some .poison
    | _ => some .poison

/-- The operation that makes the bound is moved in front of the loop. -/
def moved (helper : WhileToForHelper) : Option (Op W D) :=
  if helper.ub_cloneMove then definingOp (visibleOps loop outsideOps) helper.ub else none

/-- The arguments for what is passed on. -/
def slots : List Value := (List.range loop.condArgs.length).map fun i => .created (.passed i)

/-- The region `before` of the loop, what it passes on, and whether the other condition is true. -/
def evaluation (lookThrough : Option Value) : List (Op W D) × List Value × List Value :=
  match lookThrough with
  | some l =>
    let results := (List.range loop.condArgs.length).map fun i => .created (.evaluated i)
    ([.ifOp (results ++ [.created .nextLookThrough]) (.created .lookThrough) loop.beforeOps (loop.condArgs ++ [l])
      [.prim (.constant true (.bool false)) (.created .constFalse) []] (slots loop ++ [.created .constFalse])],
      results, [.created .nextLookThrough])
  | none => (loop.beforeOps, loop.condArgs, [])

def afterArgs : List Value := (List.range loop.condArgs.length).map fun i => .arg .after i

/-- Whether the region `after` is to be run, and the value that says so. -/
def guard (lookThrough : Option Value) (negativeStep : Bool) (boundType : IntType) : List (Op W D) × Value :=
  let compare : Op W D := .prim (.cmpI boundType (if negativeStep then .sgt else .slt)) (.created .inBounds)
    [.created .inductionVar, .created .upperBound]
  match lookThrough with
  | some _ => ([compare, .prim .andI (.created .cond) [.created .inBounds, .created .nextLookThrough]], .created .cond)
  | none => ([compare], .created .inBounds)

def carriedResults : List Value := (List.range loop.inits.length).map fun i => .created (.carried i)

def poisons : List Value := (List.range loop.inits.length).map fun i => .created (.poison i)

/-- The region `after`, under a condition where it must not be run once more. -/
def execution (lookThrough : Option Value) (negativeStep guarded : Bool) (boundType : IntType) (passed : List Value) :
    List (Op W D) × List Value :=
  -- the arguments of the region are replaced by what is passed on
  let replaced : Op W D := .other (afterArgs loop) passed id
  if guarded then
    let (guardOps, cond) := guard lookThrough negativeStep boundType
    (replaced :: guardOps ++ [.ifOp (carriedResults loop) cond loop.afterOps loop.yields
      ((poisons loop).map fun p => .prim (.constant false .poison) p []) (poisons loop)], carriedResults loop)
  else (replaced :: loop.afterOps, loop.yields)

/-- The region `before` without the operation that is moved. -/
def remainingOps (helper : WhileToForHelper) : List (Op W D) :=
  loop.beforeOps.filter fun op => !(helper.ub_cloneMove && helper.ub ∈ op.results)

def doWhile (helper : WhileToForHelper) : Bool := !Op.allPure (remainingOps loop helper)

def guarded (helper : WhileToForHelper) (lookThrough : Option Value) : Bool :=
  let mutableAfter := doWhile loop helper && !Op.allPure loop.afterOps
  lookThrough.isSome || (doWhile loop helper && loop.inits ≠ [] && mutableAfter)

def forOp (helper : WhileToForHelper) (lookThrough : Option Value) (newArgs : List Init) : ForOp W D :=
  let (lb, ub, step) := helper.prepareFor
  let loop' := { loop with beforeOps := remainingOps loop helper }
  let (evaluation, passed, next) := evaluation loop' lookThrough
  let (execution, carried) :=
    execution loop' lookThrough helper.negativeStep (guarded loop helper lookThrough) ub.type passed
  { lowerBound := lb
    upperBound := if doWhile loop helper then (Expr.maxSI ub lb).addI step else ub
    step
    bound := ub
    inits := loop.inits.map .value ++ newArgs ++ (if lookThrough.isSome then [.constTrue] else [])
    iterArgs := (List.range loop.inits.length).map (.arg .before ·) ++ slots loop ++
      (if lookThrough.isSome then [.created .lookThrough] else [])
    body := evaluation ++ execution
    yields := carried ++ passed ++ next }

/-- The operation in front of the loop, and the loop. -/
def matchAndRewrite (uninitialized : Int) : Option (Option (Op W D) × ForOp W D) :=
  (legalHelper loop outsideOps uninitialized).bind fun (helper, lookThrough) =>
    (Tensor.allSome (loop.condArgs.map (newArg loop outsideOps))).map fun newArgs =>
      (moved loop outsideOps helper, forOp loop helper lookThrough newArgs)

/-- The values that are seen in front of the new loop. -/
def isOutside (moved : Option (Op W D)) (v : Value) : Bool :=
  !loop.isInside v || moved.any fun op => v ∈ op.results

/-- The world and the results after the new code. -/
def run (new : Option (Op W D) × ForOp W D) (w : W) (env : Env D) : Option (W × List (Val D)) :=
  let s := runAll new.1.toList (w, env)
  (new.2.run s.2 (isOutside loop new.1) s.1).map fun (w', xs) =>
    (w', (xs.drop loop.inits.length).take loop.condArgs.length)

end MoveWhileToFor

end EnzymeJax.Scf
