import Lisp.Primitives
import Lisp.Parser

/-! Evaluation (`evaluator.c`, `closure.c`) and the top level (`interpreter.c`). A level of
recursion of `eval` costs one unit of fuel. -/
namespace Lisp
variable {F : Type} [CFloat F]

section apply
variable (ev : Nat → Eval F Nat)

/-- `associate`: a new association list of the names with the values of the arguments. -/
def associate : Nat → Nat → Nat → Eval F Nat
  | 0, _, _ => throw .outOfFuel
  | fuel + 1, names, args => do
    let s ← get
    if !isList s.heap names || !isList s.heap args then return 0 else
    let value ← notChecked (holding [names, args] (ev (car s.heap args)))
    let pair ← onHeap fun h => makePair h (car h names) value
    gcAdd pair
    let s ← get
    gcAdd (cdr s.heap pair)
    let rest ← holding [pair] (associate fuel (cdr s.heap names) (cdr s.heap args))
    allocate (.list pair rest)

/-- `bind`: the parameters in front of the environment. -/
def bind (fuel : Nat) (params args : Nat) : Eval F Nat := do
  let frame ← associate ev fuel params args
  let s ← get
  onHeap fun h => joinLists h frame s.env

/-- `closure_partial_application`. -/
def closurePartialApplication (fuel : Nat) (closure args : Nat) : Eval F Nat := do
  let s ← get
  if closure = 0 then return 0 else
  let nargs := listLength s.heap args
  let params ← onHeap fun h => copyRecursive h (sublist h (parameters h closure) nargs)
  gcAddRecursive params
  let procedure ← onHeap fun h => copyRecursive h (procedure h closure)
  gcAddRecursive procedure
  let captCopy ← onHeap fun h => copyRecursive h (captured h closure)
  gcAddRecursive captCopy
  let s ← get
  let newBindings ← holding [params, procedure, captCopy]
    (associate ev fuel (parameters s.heap closure) args)
  let captured ← onHeap fun h => joinLists h newBindings captCopy
  let newClosure ← onHeap fun h => newClosureSet h params procedure captured
  gcAdd newClosure
  return newClosure

/-- The part of `apply` for a closure with all its arguments. -/
def applyBody (fuel : Nat) (oper args : Nat) : Eval F Nat := do
  let s ← get
  let tmpEnv ← holding [oper] (bind ev fuel (parameters s.heap oper) args)
  let captureCopy ← onHeap fun h => copyRecursive h (captured h oper)
  gcAddRecursive captureCopy
  let newEnv ← onHeap fun h => joinLists h captureCopy tmpEnv
  let s ← get
  inEnvironment newEnv (ev (procedure s.heap oper))

def apply (fuel : Nat) (oper args : Nat) : Eval F Nat := do
  let s ← get
  match cellAt s.heap oper with
  | some (.primitive f) => f.run ev fuel args
  | some (.closure ..) =>
    if nargs s.heap oper < listLength s.heap args then return 0
    else if listLength s.heap args < nargs s.heap oper then
      closurePartialApplication ev fuel oper args
    else applyBody ev fuel oper args
  | _ => return 0

/-- The body of `eval`. -/
def evalStep (fuel : Nat) (o : Nat) : Eval F Nat := do
  let s ← get
  if isAtom s.heap o then
    return if isT s.heap o then o else lookup s.heap o s.env
  else if isNumber s.heap o || isPrimitive s.heap o || isClosure s.heap o then return o
  else if !isList s.heap o then return 0
  else if isNil s.heap o then return o
  else do
    let oper ← holding [o] (ev (car s.heap o))
    let s ← get
    apply ev fuel oper (cdr s.heap o)

end apply

/-- `eval`. An evaluation that returns `NULL` is counted. -/
def eval : Nat → Nat → Eval F Nat
  | 0, _ => throw .outOfFuel
  | fuel + 1, o => do
    let result ← evalStep (eval fuel) fuel o
    modify fun s =>
      { s with trace.failures := s.trace.failures + if result = 0 then 1 else 0 }
    return result

/-- Puts a parsed expression in memory. -/
def load (h : Heap F) : Obj F → Nat × Heap F
  | .null => (0, h)
  | .atom name => alloc h (.atom name)
  | .list a d =>
    let car := load h a
    let cdr := load car.2 d
    alloc cdr.2 (.list car.1 cdr.1)
  | .primitive f => alloc h (.primitive f)
  | .closure p b c n =>
    let params := load h p
    let proc := load params.2 b
    let capt := load proc.2 c
    alloc capt.2 (.closure params.1 proc.1 capt.1 n)
  | .int value => alloc h (.int value)
  | .float value => alloc h (.float value)

/-- `init_env`. -/
def initEnv : Nat × Heap F :=
  let primEnv := createEnvironment [] primitiveLibrary
  let mathEnv := createEnvironment primEnv.2 mathLibrary
  joinLists mathEnv.2 mathEnv.1 primEnv.1

/-- The objects that hold the values of the bindings of an environment. -/
def slotsOf (h : Heap F) (env : Nat) : List Nat :=
  (cellsFrom h h.length env).map fun l => cdr h (car h l)

/-- `interpreter_init`. -/
def interpreterInit : Interpreter F :=
  let init : Nat × Heap F := initEnv
  { heap := init.2
    env := init.1
    allocated := []
    trace := ⟨[], [], slotsOf init.2 init.1, [], 0, 0⟩ }

def liftFault {α : Type} : Except Fault α → Eval F α
  | .ok a => return a
  | .error .outOfBounds => throw .undefined
  | .error .outOfFuel => throw .outOfFuel

/-- `interpret_expression` up to `unparse`: the result object, before the collection. -/
def evalExpression (fuel : Nat) (expr : Text) : Eval F Nat := do
  let parsed ← liftFault (parseExpression expr fuel 0)
  if parsed.1.isNull then return 0 else
  let o ← onHeap fun h => load h parsed.1
  gcAddRecursive o
  let result ← eval fuel o
  modify collectGarbage
  return result

end Lisp
