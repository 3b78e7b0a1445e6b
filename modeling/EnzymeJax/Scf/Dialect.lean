import EnzymeJax.Library.IntType
import Mathlib.Data.List.Nodup

/-!
# Loops of the `scf` dialect

Operations with regions over integers, truth values and other values; the world is what side effects read and change.
A `scf.while` evaluates `before` until the condition is false, with `after` in between; a `scf.for` runs its body
for a range. The values of a region are forgotten where it ends.
-/

namespace EnzymeJax.Scf

/-- An integer, read as signed whatever its width; a truth value; another value; or one that nothing is known of. -/
inductive Val (D : Type)
  | int (n : Int)
  | bool (b : Bool)
  | data (d : D)
  | poison
  deriving DecidableEq

instance {D : Type} : Inhabited (Val D) := ⟨.poison⟩

inductive CmpIPredicate
  | eq
  | ne
  | slt
  | sle
  | sgt
  | sge
  | ult
  | ule
  | ugt
  | uge
  deriving DecidableEq

/-- The integer that the bits of a signed one are, when they are read without a sign. -/
def unsigned (type : IntType) (n : Int) : Int := n % 2 ^ type.width

def CmpIPredicate.holds (type : IntType) (a b : Int) : CmpIPredicate → Bool
  | eq => a = b
  | ne => a ≠ b
  | slt => a < b
  | sle => a ≤ b
  | sgt => b < a
  | sge => b ≤ a
  | ult => unsigned type a < unsigned type b
  | ule => unsigned type a ≤ unsigned type b
  | ugt => unsigned type b < unsigned type a
  | uge => unsigned type b ≤ unsigned type a

inductive Block
  | before
  | after
  | other (id : Nat)
  deriving DecidableEq

/-- The values of the loop that is built. -/
inductive Created
  | inductionVar
  | upperBound
  -- what the condition passed on in the iteration before, and whether the other condition was true
  | passed (number : Nat)
  | lookThrough
  | evaluated (number : Nat)
  | nextLookThrough
  | constFalse
  | inBounds
  | cond
  | carried (number : Nat)
  | poison (number : Nat)
  deriving DecidableEq

inductive Value
  | arg (owner : Block) (number : Nat)
  | result (id : Nat)
  | created (name : Created)
  deriving DecidableEq

variable {W D : Type}

/-- The operations of `arith` that are looked for. -/
inductive Prim (D : Type)
  -- whether it is the constant operation of `arith`
  | constant (arith : Bool) (x : Val D)
  | addI (type : IntType)
  | cmpI (type : IntType) (predicate : CmpIPredicate)
  | andI
  | xorI
  | select
  | extSI

/-- An operation without regions, one with two, or one with side effects. -/
inductive Op (W D : Type)
  | prim (op : Prim D) (result : Value) (operands : List Value)
  | ifOp (results : List Value) (condition : Value) (thenOps : List (Op W D)) (thenYield : List Value)
    (elseOps : List (Op W D)) (elseYield : List Value)
  | other (results operands : List Value) (f : List (Val D) → List (Val D))
  | effect (results operands : List Value) (f : W → List (Val D) → W × List (Val D))

namespace Op

def results : Op W D → List Value
  | prim _ r _ => [r]
  | ifOp rs _ _ _ _ _ | other rs _ _ | effect rs _ _ => rs

def operands : Op W D → List Value
  | prim _ _ as | other _ as _ | effect _ as _ => as
  | ifOp _ c _ _ _ _ => [c]

mutual

/-- The operation has no side effects, and none in its regions. -/
def isPure : Op W D → Bool
  | prim .. | other .. => true
  | ifOp _ _ thenOps _ elseOps _ => allPure thenOps && allPure elseOps
  | effect .. => false

def allPure : List (Op W D) → Bool
  | [] => true
  | op :: ops => op.isPure && allPure ops

end

mutual

def uses : Op W D → List Value
  | prim _ _ as | other _ as _ | effect _ as _ => as
  | ifOp _ c thenOps thenYield elseOps elseYield => c :: (allUses thenOps ++ thenYield ++ (allUses elseOps ++ elseYield))

def allUses : List (Op W D) → List Value
  | [] => []
  | op :: ops => op.uses ++ allUses ops

end

mutual

/-- The values that the operation and its regions define. -/
def defines : Op W D → List Value
  | prim _ r _ => [r]
  | ifOp rs _ thenOps _ elseOps _ => rs ++ (allDefines thenOps ++ allDefines elseOps)
  | other rs _ _ | effect rs _ _ => rs

def allDefines : List (Op W D) → List Value
  | [] => []
  | op :: ops => op.defines ++ allDefines ops

end

end Op

/-! ### Evaluation -/

abbrev Env (D : Type) := Value → Val D

def Val.isTrue : Val D → Bool
  | .bool b => b
  | _ => false

def Prim.eval : Prim D → List (Val D) → Val D
  | constant _ x, [] => x
  | addI type, [.int a, .int b] => .int (type.wrap (a + b))
  | cmpI type predicate, [.int a, .int b] => .bool (predicate.holds type a b)
  | andI, [.bool a, .bool b] => .bool (a && b)
  | xorI, [.bool a, .bool b] => .bool (a ^^ b)
  | select, [.bool c, x, y] => if c then x else y
  | extSI, [x] => x
  | _, _ => .poison

/-- The values become those of the list. -/
def Env.bind (env : Env D) (vs : List Value) (xs : List (Val D)) : Env D := fun v =>
  if v ∈ vs then (((vs.zip xs).find? fun p => p.1 = v).map Prod.snd).getD .poison else env v

/-- The arguments of a block become the values of the list. -/
def Env.bindArgs (env : Env D) (block : Block) (xs : List (Val D)) : Env D := fun v =>
  match v with
  | .arg owner number => if owner = block then xs[number]?.getD (env v) else env v
  | _ => env v

mutual

def Op.run : Op W D → W × Env D → W × Env D
  | .prim op r as, (w, env) => (w, Function.update env r (op.eval (as.map env)))
  | .ifOp rs c thenOps thenYield elseOps elseYield, (w, env) =>
    if (env c).isTrue then
      let s := runAll thenOps (w, env)
      (s.1, env.bind rs (thenYield.map s.2))
    else
      let s := runAll elseOps (w, env)
      (s.1, env.bind rs (elseYield.map s.2))
  | .other rs as f, (w, env) => (w, env.bind rs (f (as.map env)))
  | .effect rs as f, (w, env) =>
    let s := f w (as.map env)
    (s.1, env.bind rs s.2)

def runAll : List (Op W D) → W × Env D → W × Env D
  | [], s => s
  | op :: ops, s => runAll ops (op.run s)

end

/-! ### Loops -/

/-- A `scf.while`. The arguments of its regions are those of the blocks `before` and `after`. -/
structure WhileOp (W D : Type) where
  inits : List Value
  beforeOps : List (Op W D)
  condition : Value
  condArgs : List Value
  afterOps : List (Op W D)
  yields : List Value

namespace WhileOp

variable (loop : WhileOp W D) (env : Env D)

/-- The region `before`, from the world and the carried values. -/
def evaluate (s : W × List (Val D)) : W × Env D := runAll loop.beforeOps (s.1, env.bindArgs .before s.2)

def continues (s : W × List (Val D)) : Bool := ((loop.evaluate env s).2 loop.condition).isTrue

/-- What the condition passes on. -/
def passed (s : W × List (Val D)) : W × List (Val D) :=
  ((loop.evaluate env s).1, loop.condArgs.map (loop.evaluate env s).2)

/-- The region `after`, from what is passed on. -/
def body (s : W × List (Val D)) : W × Env D := runAll loop.afterOps (s.1, env.bindArgs .after s.2)

def next (s : W × List (Val D)) : W × List (Val D) :=
  let e := loop.body env (loop.passed env s)
  (e.1, loop.yields.map e.2)

/-- The world and the carried values before evaluation `k` of the condition. -/
def entering (w : W) (k : Nat) : W × List (Val D) := (loop.next env)^[k] (w, loop.inits.map env)

def ExitsAfter (w : W) (n : Nat) : Prop :=
  (∀ k < n, loop.continues env (loop.entering env w k) = true) ∧ loop.continues env (loop.entering env w n) = false

/-- The value is defined in the loop. -/
def isInside (v : Value) : Bool :=
  match v with
  | .arg owner _ => owner = .before || owner = .after
  | _ => v ∈ Op.allDefines loop.beforeOps ++ Op.allDefines loop.afterOps

end WhileOp

def index : IntType := ⟨64, false⟩

/-- Operations on integers that are created in front of a loop. -/
inductive Expr
  | value (type : IntType) (v : Value)
  | constant (type : IntType) (n : Int)
  | addI (a b : Expr)
  | subI (a b : Expr)
  | maxSI (a b : Expr)
  | indexCast (a : Expr)
  deriving DecidableEq

def Expr.type : Expr → IntType
  | value type _ | constant type _ => type
  | addI a _ | subI a _ | maxSI a _ => a.type
  | indexCast _ => index

/-- What the operations compute, if they can be built: their operands are of one type, and seen in front of the
loop. -/
def Expr.eval (outside : Value → Bool) (env : Env D) : Expr → Option Int
  | value _ v =>
    match outside v, env v with
    | true, .int n => some n
    | _, _ => none
  | constant type n => some (type.wrap n)
  | addI a b => if a.type = b.type then do
      let x ← a.eval outside env
      let y ← b.eval outside env
      return a.type.wrap (x + y)
    else none
  | subI a b => if a.type = b.type then do
      let x ← a.eval outside env
      let y ← b.eval outside env
      return a.type.wrap (x - y)
    else none
  | maxSI a b => if a.type = b.type then do
      let x ← a.eval outside env
      let y ← b.eval outside env
      return max x y
    else none
  | indexCast a => (a.eval outside env).map index.wrap

/-- An operand of the new loop. -/
inductive Init
  | value (v : Value)
  | poison
  | constTrue
  deriving DecidableEq

def Init.eval (env : Env D) : Init → Val D
  | value v => env v
  | poison => .poison
  | constTrue => .bool true

/-- A `scf.for`, and what is created in front of it. -/
structure ForOp (W D : Type) where
  lowerBound : Expr
  upperBound : Expr
  step : Expr
  -- a bound that its body uses as well
  bound : Expr
  inits : List Init
  iterArgs : List Value
  body : List (Op W D)
  yields : List Value

/-- How often a loop from `lb` to `ub` is run. -/
def tripCount (lb ub step : Int) : Nat := ((ub - lb + step - 1) / step).toNat

namespace ForOp

variable (loop : ForOp W D) (env : Env D) (lb step bound : Int)

/-- The environment of the body for one value of the induction variable. -/
def bodyEnv (k : Nat) (xs : List (Val D)) : Env D :=
  Function.update (Function.update (env.bind loop.iterArgs xs) (.created .upperBound) (.int bound))
    (.created .inductionVar) (.int (lb + k * step))

def iteration (k : Nat) (s : W × List (Val D)) : W × List (Val D) :=
  let e := runAll loop.body (s.1, loop.bodyEnv env lb step bound k s.2)
  (e.1, loop.yields.map e.2)

/-- The world and the carried values before iteration `k`. -/
def entering (w : W) : Nat → W × List (Val D)
  | 0 => (w, loop.inits.map (Init.eval env))
  | k + 1 => loop.iteration env lb step bound k (entering w k)

/-- The loop is defined for a positive step. -/
def run (outside : Value → Bool) (w : W) : Option (W × List (Val D)) := do
  let lb ← loop.lowerBound.eval outside env
  let ub ← loop.upperBound.eval outside env
  let step ← loop.step.eval outside env
  let bound ← loop.bound.eval outside env
  if 0 < step ∧ loop.lowerBound.type = loop.upperBound.type ∧ loop.lowerBound.type = loop.step.type then
    some (loop.entering env lb step bound w (tripCount lb ub step))
  else none

end ForOp

end EnzymeJax.Scf
