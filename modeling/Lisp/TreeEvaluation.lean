import Lisp.ListValues
import Lisp.Capture
import Lisp.Arithmetic

/-! Evaluation of trees in an environment of trees: what `eval` does where nothing is stored. -/
namespace Lisp
open ExceptState
variable {F : Type}

/-- The bindings of an environment, the innermost first. -/
abbrev Scope (F : Type) := List (Option Text × Obj F)

/-- `lookup` on trees. -/
def Scope.find (ρ : Scope F) (n : Text) : Option (Obj F) :=
  (List.find? (fun b => b.1 == some n) ρ).map Prod.snd

namespace Obj

def isAtom : Obj F → Bool
  | .atom _ => true
  | _ => false

def isPrimitive : Obj F → Bool
  | .primitive _ => true
  | _ => false

def isNumber : Obj F → Bool
  | .int _ => true
  | .float _ => true
  | _ => false

def ofBool (b : Bool) : Obj F := if b then .atom "t".toList else .nil

/-- A parameter. -/
def ofKey : Option Text → Obj F
  | none => .null
  | some n => .atom n

/-- The list of pairs that has the bindings. -/
def bindTree : Scope F → Obj F
  | [] => .null
  | (name, v) :: binds => .list (.list (.ofKey name) (.list v .null)) (bindTree binds)

end Obj

section primitives
variable [CFloat F] (ev : Obj F → Except Halt (Obj F)) (args : Obj F)

def quoteTree : Obj F := if args.length ≠ 1 then .null else args.ith 0

def atomTree : Except Halt (Obj F) :=
  if args.length ≠ 1 then .ok .null else do
  let v ← ev (args.ith 0)
  return .ofBool (if v.isList then v.isNil else v.isAtom || v.isNumber)

def carTree : Except Halt (Obj F) :=
  if args.length ≠ 1 then .ok .null else do
  let v ← ev (args.ith 0)
  return v.carValue

def cdrTree : Except Halt (Obj F) :=
  if args.length ≠ 1 then .ok .null else do
  let v ← ev (args.ith 0)
  return v.cdrValue

def consTree : Except Halt (Obj F) :=
  if args.length ≠ 2 then .ok .null
  else if (args.ith 1).isNull then .ok .null else do
  let u ← ev (args.ith 0)
  if u.isNull then return .null else
  let v ← ev (args.ith 1)
  return u.consValue v

def condTree (ev : Obj F → Except Halt (Obj F)) : Nat → Obj F → Except Halt (Obj F)
  | 0, _ => .error .outOfFuel
  | _ + 1, .null => .ok .nil
  | fuel + 1, .list pair rest =>
    if !pair.isList then .ok .null
    else if pair.isNil then .ok .null
    else if pair.length ≠ 2 then .ok .null else do
    let p ← ev (pair.ith 0)
    if p.isPrimitive then return .null else
    if !p.isNil then if (pair.ith 1).isNull then return .null else ev (pair.ith 1)
    else condTree ev fuel rest
  | _ + 1, _ => .ok .null

/-- The primitives that take two numbers. -/
def numbersTree (op : Obj F → Obj F → Except Halt (Obj F)) : Except Halt (Obj F) :=
  if args.length ≠ 2 then .ok .null else do
  let u ← ev (args.ith 0)
  if !u.isNumber then return .null else
  let v ← ev (args.ith 1)
  if !v.isNumber then return .null else op u v

/-- The value of a number as a float. -/
def Obj.toFloat : Obj F → F
  | .int value => CFloat.ofInt value
  | .float value => value
  | _ => CFloat.ofInt 0

/-- An operation on floats does not read the state. -/
def floatTree (fuel : Nat) (f : Primitive) (x y : F) : Except Halt F :=
  (exec (floatOp fuel f x y) ⟨[], 0, [], ⟨[], [], [], [], 0, 0⟩⟩).1

def arithmeticTree (fuel : Nat) (f : Primitive) : Obj F → Obj F → Except Halt (Obj F)
  | .int a, .int b =>
    match intOp f a b with
    | some z => .ok (.int z)
    | none => .error .undefined
  | u, v => do
    let z ← floatTree fuel f u.toFloat v.toFloat
    return .int (CFloat.toInt z)

def compareTree (intOp : Int → Int → Bool) (floatOp : F → F → Bool) :
    Obj F → Obj F → Except Halt (Obj F)
  | .int a, .int b => .ok (.ofBool (intOp a b))
  | u, v => .ok (.ofBool (floatOp u.toFloat v.toFloat))

/-- The primitives other than `set`, `env` and `eq`. -/
def primitiveTree (find : Text → Option (Obj F)) (fuel : Nat) : Primitive → Except Halt (Obj F)
  | .quote => .ok (quoteTree args)
  | .atom => atomTree ev args
  | .car => carTree ev args
  | .cdr => cdrTree ev args
  | .cons => consTree ev args
  | .cond => condTree ev fuel args
  | .lambda => .ok (Obj.lambda find args)
  | .equal => numbersTree ev args (compareTree (· == ·) CFloat.eq)
  | .gt => numbersTree ev args (compareTree (fun x y => decide (y < x)) fun x y => CFloat.lt y x)
  | .gte => numbersTree ev args (compareTree (fun x y => decide (y ≤ x)) fun x y => CFloat.le y x)
  | .lt => numbersTree ev args (compareTree (fun x y => decide (x < y)) CFloat.lt)
  | .lte => numbersTree ev args (compareTree (fun x y => decide (x ≤ y)) CFloat.le)
  | .add => numbersTree ev args (arithmeticTree fuel .add)
  | .sub => numbersTree ev args (arithmeticTree fuel .sub)
  | .mul => numbersTree ev args (arithmeticTree fuel .mul)
  | .divide => numbersTree ev args (arithmeticTree fuel .divide)
  | .mod => numbersTree ev args (arithmeticTree fuel .mod)
  | _ => .ok .null

end primitives

section evaluation

/-- The expressions of an argument list. -/
def Obj.cells : Obj F → List (Obj F)
  | .list a d => a :: d.cells
  | _ => []

/-- `associate` on trees: the names and the values of the arguments, one after the other. -/
def associateTree : Nat → List (Option Text) → List (Except Halt (Obj F)) →
    Except Halt (Scope F)
  | 0, _, _ => .error .outOfFuel
  | fuel + 1, n :: ns, x :: xs => do
    let v ← x
    let rest ← associateTree fuel ns xs
    return (n, v) :: rest
  | _ + 1, _, _ => .ok []

variable [CFloat F]

/-- The bindings of the arguments, with the names that the parameters have. -/
def bindTrees (ev : Obj F → Except Halt (Obj F)) (fuel : Nat) (params args : Obj F) :
    Except Halt (Scope F) :=
  associateTree fuel (params.paramNames.getD []) (args.cells.map ev)

/-- `apply` on trees. -/
def applyTree (ev : Scope F → Obj F → Except Halt (Obj F)) (fuel : Nat) (ρ : Scope F)
    (oper args : Obj F) : Except Halt (Obj F) :=
  match oper with
  | .primitive f => primitiveTree (ev ρ) args ρ.find fuel f
  | .closure p b k n =>
    if n < args.length then .ok .null else do
    let binds ← bindTrees (ev ρ) fuel p args
    if args.length < n then
      return .closure (p.drop args.length) b (Obj.bindTree (binds ++ k.bindings))
        (p.drop args.length).paramCount
    else ev (k.bindings ++ binds ++ ρ) b
  | _ => .ok .null

/-- `eval` on trees. -/
def evalTree : Nat → Scope F → Obj F → Except Halt (Obj F)
  | 0, _, _ => .error .outOfFuel
  | _ + 1, ρ, .atom n => .ok (if isTruthName n then .atom n else (ρ.find n).getD .null)
  | fuel + 1, ρ, .list a d =>
    if (Obj.list a d).isNil then .ok (.list a d) else do
    let oper ← evalTree fuel ρ a
    applyTree (evalTree fuel) fuel ρ oper d
  | _ + 1, _, t => .ok t

end evaluation

end Lisp
