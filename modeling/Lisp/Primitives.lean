import Lisp.Interpreter

/-! The primitive procedures (`primitives.c`, `math-lib.c`). Each takes the evaluator it
calls, `ev`, and the argument list. -/
namespace Lisp
variable {F : Type} [CFloat F]

/-- A new truth atom. -/
def t : Eval F Nat := allocate (.atom "t".toList)

/-- A new empty list. -/
def nil : Eval F Nat := allocate (.list 0 0)

def ofBool (b : Bool) : Eval F Nat := if b then t else nil

def orUndefined {α : Type} : Option α → Eval F α
  | some a => return a
  | none => throw .undefined

section capture

/-- The test of `lambda` on its parameter list: each element is missing or an atom other
than the truth atom. -/
def isParameter (h : Heap F) (var : Nat) : Bool :=
  var == 0 || (isAtom h var && !isT h var)

/-- `capture_variables`: the captured list so far and the heap it is in. -/
def captureVariables (params env : Nat) :
    Nat → Heap F → Nat → Nat → Option (Nat × Heap F)
  | 0, h, captured, _ => some (captured, h)
  | fuel + 1, h, captured, procedure => do
    if isAtom h procedure then
      if lookupPair h procedure captured ≠ 0 then return (captured, h)
      if ← listContains h (h.length + 1) params procedure then return (captured, h)
      if lookupPair h procedure env = 0 then return (captured, h)
      let pairCopy := copyRecursive h (lookupPair h procedure env)
      return alloc pairCopy.2 (.list pairCopy.1 captured)
    else if isList h procedure then
      let next ← captureVariables params env fuel h captured (car h procedure)
      captureVariables params env fuel next.2 next.1 (cdr h procedure)
    else return (captured, h)

end capture

section arithmetic

/-- A result that the `int` type holds; overflow is undefined in C. -/
def checkedInt (z : Int) : Option Int := if -2 ^ 31 ≤ z ∧ z < 2 ^ 31 then some z else none

def addInts (x y : Int) : Option Int := checkedInt (x + y)
def subInts (x y : Int) : Option Int := checkedInt (x - y)
def mulInts (x y : Int) : Option Int := checkedInt (x * y)
def divideInts (x y : Int) : Option Int := if y = 0 then none else checkedInt (x.tdiv y)
def modInts (x y : Int) : Option Int :=
  if y = 0 then none else (checkedInt (x.tdiv y)).map fun _ => x.tmod y

/-- The loop of `mod_floats`. -/
def modFloatsFrom : Nat → F → F → Eval F F
  | 0, _, _ => throw .outOfFuel
  | fuel + 1, x, y => if CFloat.le y x then modFloatsFrom fuel (CFloat.sub x y) y else return x

def absFloat (x : F) : F := if CFloat.lt (CFloat.ofInt 0) x then x else CFloat.neg x

def modFloats (fuel : Nat) (x y : F) : Eval F F := modFloatsFrom fuel (absFloat x) (absFloat y)

end arithmetic

namespace Primitives
variable (ev : Nat → Eval F Nat) (fuel : Nat) (args : Nat)

def quote : Eval F Nat := do
  let s ← get
  if listLength s.heap args ≠ 1 then return 0 else
  return car s.heap args

def atom : Eval F Nat := do
  let s ← get
  if listLength s.heap args ≠ 1 then return 0 else
  let result ← notChecked (ev (car s.heap args))
  let s ← get
  ofBool (if isList s.heap result then isNil s.heap result
    else isAtom s.heap result || isNumber s.heap result)

def eq : Eval F Nat := do
  let s ← get
  if listLength s.heap args ≠ 2 then return 0 else
  let first ← holding [args] (ev (ith s.heap args 0))
  if first = 0 then return 0 else
  let s ← get
  let second ← holding [first] (ev (ith s.heap args 1))
  if second = 0 then return 0 else
  let s ← get
  ofBool (compare s.heap first second)

def car : Eval F Nat := do
  let s ← get
  if listLength s.heap args ≠ 1 then return 0 else
  let argValue ← ev (Lisp.car s.heap args)
  let s ← get
  if argValue = 0 then return 0 else
  if !isList s.heap argValue then return 0 else
  if isNil s.heap argValue then nil else
  return Lisp.car s.heap argValue

def cdr : Eval F Nat := do
  let s ← get
  if listLength s.heap args ≠ 1 then return 0 else
  let argValue ← ev (Lisp.car s.heap args)
  let s ← get
  if argValue = 0 then return 0 else
  if !isList s.heap argValue then return 0 else
  if isNil s.heap argValue then nil else
  if Lisp.cdr s.heap argValue = 0 then nil else
  return Lisp.cdr s.heap argValue

def cons : Eval F Nat := do
  let s ← get
  if listLength s.heap args ≠ 2 then return 0 else
  let y := ith s.heap args 1
  if y = 0 then return 0 else
  let car ← holding [y] (ev (Lisp.car s.heap args))
  if car = 0 then return 0 else
  let cdr ← holding [car] (ev y)
  if cdr = 0 then return 0 else
  let s ← get
  if !isList s.heap cdr then return 0 else
  allocate (.list car cdr)

/-- `cond`, whose last call is to itself on the remaining clauses. -/
def cond (ev : Nat → Eval F Nat) : Nat → Nat → Eval F Nat
  | 0, _ => throw .outOfFuel
  | fuel + 1, args => do
    let s ← get
    if args = 0 then nil else
    if !isList s.heap args then return 0 else
    let pair := Lisp.car s.heap args
    if !isList s.heap pair then return 0 else
    if isNil s.heap pair then return 0 else
    if listLength s.heap pair ≠ 2 then return 0 else
    let predicate ← notChecked (holding [args, pair] (ev (Lisp.car s.heap pair)))
    let s ← get
    if isPrimitive s.heap predicate then return 0 else
    if !isNil s.heap predicate then
      if ith s.heap pair 1 = 0 then return 0 else
      ev (ith s.heap pair 1)
    else cond ev fuel (Lisp.cdr s.heap args)

/-- The branch of `set` for a name without a binding. -/
def bindNew (varName resultCpy : Nat) : Eval F Unit := do
  let s ← get
  let pairSecond ← onHeap fun h => alloc h (.list resultCpy 0)
  let varNameCopy ← onHeap fun h => copyRecursive h varName
  let pairFirst ← onHeap fun h => alloc h (.list varNameCopy pairSecond)
  let newLink ← onHeap fun h => alloc h (.list pairFirst s.env)
  modify fun s => { s with env := newLink, trace.stored := pairSecond :: s.trace.stored }

/-- The branch of `set` for a name with a binding: the old value is disposed of. -/
def overwrite (slot resultCpy : Nat) : Eval F Unit :=
  modify fun s =>
    { s with
      heap := update (disposeRecursive s.heap (Lisp.car s.heap slot)) slot
        fun o => { o with cell := .list resultCpy (Lisp.cdr s.heap slot) }
      trace.stored := slot :: s.trace.stored
      trace.overwrites :=
        ⟨s.heap, s.env, s.trace.saved, s.allocated, slot, s.trace.held, s.trace.stored⟩ ::
          s.trace.overwrites }

/-- The part of `set` that follows the evaluations. -/
def store (varName value : Nat) : Eval F Nat := do
  let resultCpy ← onHeap fun h => copyRecursive h value
  if resultCpy = 0 then return 0 else
  let s ← get
  if lookupEntry s.heap varName s.env = 0 then
    bindNew varName resultCpy
    return value
  else
    overwrite (lookupEntry s.heap varName s.env) resultCpy
    return resultCpy

def set : Eval F Nat := do
  let s ← get
  if listLength s.heap args ≠ 2 then return 0 else
  let varName ← holding [args] (ev (ith s.heap args 0))
  let s ← get
  if isNil s.heap varName then return 0 else
  if isT s.heap varName then return 0 else
  if !isAtom s.heap varName then return 0 else
  let value ← holding [varName] (ev (ith s.heap args 1))
  if value = 0 then return 0 else
  store varName value

def env : Eval F Nat := do
  let s ← get
  if listLength s.heap args ≠ 0 then return 0 else
  return s.env

def lambda : Eval F Nat := do
  let s ← get
  if listLength s.heap args < 1 then return 0 else
  if 2 < listLength s.heap args then return 0 else
  let params := ith s.heap args 0
  if !isList s.heap params then return 0 else
  if !((cellsFrom s.heap s.heap.length params).map (Lisp.car s.heap)).all
    (isParameter s.heap) then return 0 else
  let params ← onHeap fun h => copyRecursive h params
  let procedure ← onHeap fun h => copyRecursive h (ith h args 1)
  if params = 0 ∨ procedure = 0 then
    modify fun s => { s with heap := disposeRecursive (disposeRecursive s.heap params) procedure }
    return 0
  else
  let s ← get
  let capture ← orUndefined
    (captureVariables params s.env s.heap.length s.heap 0 procedure)
  modify fun s => { s with heap := capture.2 }
  let o ← onHeap fun h => newClosureSet h params procedure capture.1
  gcAddRecursive o
  return o

def defmacro : Eval F Nat := return 0

/-- `apply_arithmetic`, whose float results are stored by `new_int` as well. -/
def applyArithmetic (intOp : Int → Int → Option Int) (floatOp : F → F → Eval F F) :
    Eval F Nat := do
  let s ← get
  if listLength s.heap args ≠ 2 then return 0 else
  let first ← holding [args] (ev (ith s.heap args 0))
  let s ← get
  if first = 0 then return 0 else
  if !isNumber s.heap first then return 0 else
  let second ← holding [first] (ev (ith s.heap args 1))
  let s ← get
  if second = 0 then return 0 else
  if !isNumber s.heap second then return 0 else
  if isFloat s.heap first || isFloat s.heap second then
    let value ← floatOp (getFloat s.heap first) (getFloat s.heap second)
    allocate (.int (CFloat.toInt value))
  else
    let value ← orUndefined (intOp (getInt s.heap first) (getInt s.heap second))
    allocate (.int value)

def add : Eval F Nat := applyArithmetic ev args addInts fun x y => return CFloat.add x y
def sub : Eval F Nat := applyArithmetic ev args subInts fun x y => return CFloat.sub x y
def mul : Eval F Nat := applyArithmetic ev args mulInts fun x y => return CFloat.mul x y
def divide : Eval F Nat := applyArithmetic ev args divideInts fun x y => return CFloat.div x y
def mod : Eval F Nat := applyArithmetic ev args modInts (modFloats fuel)

/-- `def_math_compare_primitive`. -/
def compareNumbers (intOp : Int → Int → Bool) (floatOp : F → F → Bool) : Eval F Nat := do
  let s ← get
  if listLength s.heap args ≠ 2 then return 0 else
  let first ← holding [args] (ev (ith s.heap args 0))
  let s ← get
  if first = 0 then return 0 else
  if !isNumber s.heap first then return 0 else
  let second ← holding [first] (ev (ith s.heap args 1))
  let s ← get
  if second = 0 then return 0 else
  if !isNumber s.heap second then return 0 else
  ofBool (if isInt s.heap first && isInt s.heap second
    then intOp (getInt s.heap first) (getInt s.heap second)
    else floatOp (getFloat s.heap first) (getFloat s.heap second))

def equal : Eval F Nat := compareNumbers ev args (· == ·) CFloat.eq
def gt : Eval F Nat := compareNumbers ev args (fun x y => decide (y < x)) fun x y => CFloat.lt y x
def gte : Eval F Nat := compareNumbers ev args (fun x y => decide (y ≤ x)) fun x y => CFloat.le y x
def lt : Eval F Nat := compareNumbers ev args (fun x y => decide (x < y)) CFloat.lt
def lte : Eval F Nat := compareNumbers ev args (fun x y => decide (x ≤ y)) CFloat.le

end Primitives

/-- The function that a primitive object points to. -/
def Primitive.run (ev : Nat → Eval F Nat) (fuel : Nat) (args : Nat) : Primitive → Eval F Nat
  | .quote => Primitives.quote args
  | .atom => Primitives.atom ev args
  | .eq => Primitives.eq ev args
  | .car => Primitives.car ev args
  | .cdr => Primitives.cdr ev args
  | .cons => Primitives.cons ev args
  | .cond => Primitives.cond ev fuel args
  | .set => Primitives.set ev args
  | .env => Primitives.env args
  | .lambda => Primitives.lambda args
  | Primitive.defmacro => Primitives.defmacro
  | .add => Primitives.add ev args
  | .sub => Primitives.sub ev args
  | .mul => Primitives.mul ev args
  | .divide => Primitives.divide ev args
  | .mod => Primitives.mod ev fuel args
  | .equal => Primitives.equal ev args
  | .gt => Primitives.gt ev args
  | .gte => Primitives.gte ev args
  | .lt => Primitives.lt ev args
  | .lte => Primitives.lte ev args

def primitiveLibrary : List (Text × Primitive) :=
  [("quote".toList, .quote), ("atom".toList, .atom), ("eq".toList, .eq), ("car".toList, .car),
    ("cdr".toList, .cdr), ("cons".toList, .cons), ("cond".toList, .cond), ("set".toList, .set),
    ("env".toList, .env), ("lambda".toList, .lambda), ("defmacro".toList, Primitive.defmacro)]

def mathLibrary : List (Text × Primitive) :=
  [("+".toList, .add), ("-".toList, .sub), ("*".toList, .mul), ("/".toList, .divide),
    ("%".toList, .mod), ("=".toList, .equal), (">".toList, .gt), (">=".toList, .gte),
    ("<".toList, .lt), ("<=".toList, .lte)]

end Lisp
