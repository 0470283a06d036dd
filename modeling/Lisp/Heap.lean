import Lisp.Objects

/-! Lisp objects in memory (`lisp-objects.c`, `list.c`, `environment.c`). A walk over
objects is bounded by the number of objects, which it exceeds only on a cycle. Where C reads
a field that the object does not have, the field reads as `NULL`. -/
namespace Lisp
variable {F : Type}

/-- What an `obj` holds. A pointer is a number, and 0 is `NULL`. -/
inductive Cell (F : Type) where
  | atom (name : Text)
  | list (car cdr : Nat)
  | primitive (f : Primitive)
  | closure (parameters procedure captured : Nat) (nargs : Int)
  | int (value : Int)
  | float (value : F)
deriving DecidableEq, Repr

/-- An `obj`, with a flag for `free`. A freed object keeps its last contents. -/
structure Object (F : Type) where
  cell : Cell F
  reachable : Bool
  freed : Bool
deriving DecidableEq, Repr

/-- Every object allocated so far, the one at address `a + 1` at index `a`: addresses are
not used again. -/
abbrev Heap (F : Type) := List (Object F)

def objectAt (h : Heap F) : Nat → Option (Object F)
  | 0 => none
  | a + 1 => h[a]?

def cellAt (h : Heap F) (a : Nat) : Option (Cell F) := (objectAt h a).map Object.cell

/-- Replaces the object at `a`, if there is one. -/
def update (h : Heap F) (a : Nat) (f : Object F → Object F) : Heap F :=
  match a with
  | 0 => h
  | a + 1 => h.modify a f

/-- `malloc`, and the constructors that fill the new object. It does not fail. -/
def alloc (h : Heap F) (c : Cell F) : Nat × Heap F :=
  (h.length + 1, h ++ [⟨c, false, false⟩])

/-- `free`. -/
def dispose (h : Heap F) (a : Nat) : Heap F := update h a fun o => { o with freed := true }

section fields
variable (h : Heap F) (o : Nat)

def isAtom : Bool := match cellAt h o with | some (.atom _) => true | _ => false
def isPrimitive : Bool := match cellAt h o with | some (.primitive _) => true | _ => false
def isList : Bool := match cellAt h o with | some (.list _ _) => true | _ => false
def isClosure : Bool := match cellAt h o with | some (.closure ..) => true | _ => false
def isInt : Bool := match cellAt h o with | some (.int _) => true | _ => false
def isFloat : Bool := match cellAt h o with | some (.float _) => true | _ => false
def isNumber : Bool := isFloat h o || isInt h o

/-- `CAR(o)`. -/
def car : Nat := match cellAt h o with | some (.list car _) => car | _ => 0

/-- `CDR(o)`. -/
def cdr : Nat := match cellAt h o with | some (.list _ cdr) => cdr | _ => 0

/-- `ATOM(o)`. -/
def atomName : Text := match cellAt h o with | some (.atom name) => name | _ => []

/-- `PARAMETERS(o)`. -/
def parameters : Nat := match cellAt h o with | some (.closure p _ _ _) => p | _ => 0

/-- `PROCEDURE(o)`. -/
def procedure : Nat := match cellAt h o with | some (.closure _ p _ _) => p | _ => 0

/-- `CAPTURED(o)`. -/
def captured : Nat := match cellAt h o with | some (.closure _ _ c _) => c | _ => 0

/-- `NARGS(o)`. -/
def nargs : Int := match cellAt h o with | some (.closure _ _ _ n) => n | _ => 0

def isNil : Bool := isList h o && car h o == 0 && cdr h o == 0

/-- The names that `is_t` accepts. -/
def isTruthName (name : Text) : Bool := name == "t".toList || name == "true".toList

def isT : Bool := isAtom h o && isTruthName (atomName h o)

end fields

section numbers
variable [CFloat F] (h : Heap F) (o : Nat)

def getInt : Int :=
  match cellAt h o with
  | some (.int value) => value
  | some (.float value) => CFloat.toInt value
  | _ => 0

def getFloat : F :=
  match cellAt h o with
  | some (.int value) => CFloat.ofInt value
  | some (.float value) => value
  | _ => CFloat.ofInt 0

/-- `compare`; the fields of lists and closures are compared as pointers. -/
def compare (a b : Nat) : Bool :=
  match cellAt h a, cellAt h b with
  | some (.int x), some (.int y) => x == y
  | some (.float x), some (.float y) => CFloat.eq x y
  | some (.primitive f), some (.primitive g) => f == g
  | some (.list x xs), some (.list y ys) => x == y && xs == ys
  | some (.atom x), some (.atom y) => x == y
  | some (.closure p b c n), some (.closure p' b' c' n') =>
    p == p' && b == b' && c == c' && n == n'
  | none, none => a == b
  | _, _ => false

end numbers

section lists
variable (h : Heap F)

def ith (o : Nat) : Nat → Nat
  | 0 => if isList h o then car h o else 0
  | i + 1 => if isList h o then ith (cdr h o) i else 0

def sublist (o : Nat) : Nat → Nat
  | 0 => if isList h o then o else 0
  | i + 1 => if isList h o then sublist (cdr h o) i else 0

/-- The cells of the list at `l`, from the first to the last. -/
def cellsFrom : Nat → Nat → List Nat
  | 0, _ => []
  | fuel + 1, l => if l = 0 then [] else l :: cellsFrom fuel (cdr h l)

/-- `list_length` of a list of fewer than `2 ^ 31` cells, as its count is an `int`. -/
def listLength (o : Nat) : Nat :=
  if o = 0 then 0 else if !isList h o then 1 else (cellsFrom h h.length o).length

/-- `compare_recursive`; `none` where it reads the type of a `NULL` object. -/
def compareRecursive : Nat → Nat → Nat → Option Bool
  | 0, _, _ => none
  | fuel + 1, x, y =>
    if x = 0 then some (y == 0) else
    match cellAt h x, cellAt h y with
    | _, none => none
    | some (.atom a), some (.atom b) => some (a == b)
    | some (.list a as), some (.list b bs) => do
      if ← compareRecursive fuel a b then compareRecursive fuel as bs else return false
    | _, _ => some (x == y)

/-- `list_contains`. -/
def listContains : Nat → Nat → Nat → Option Bool
  | 0, _, _ => none
  | fuel + 1, list, query => do
    if list = 0 ∨ query = 0 then return false
    if ← compareRecursive h (h.length + 1) (car h list) query then return true
    listContains fuel (cdr h list) query

/-- `join_lists`: the heap after the last cell of the first list is linked to the second. -/
def joinFrom : Nat → Nat → Nat → Heap F
  | 0, _, _ => h
  | fuel + 1, list1, list2 =>
    if cdr h list1 = 0 then
      update h list1 fun o => { o with cell := .list (car h list1) list2 }
    else joinFrom fuel (cdr h list1) list2

def joinLists (list1 list2 : Nat) : Nat × Heap F :=
  if list1 = 0 then (list2, h)
  else if list2 = 0 then (list1, h)
  else (list1, joinFrom h h.length list1 list2)

/-- The objects below `o`, each after its parts: the order in which `dispose_recursive`
frees them and `gc_add_recursive` records them. -/
def postOrder : Nat → Nat → List Nat
  | 0, _ => []
  | fuel + 1, o =>
    if o = 0 then [] else
    match cellAt h o with
    | some (.list a d) => postOrder fuel a ++ postOrder fuel d ++ [o]
    | some (.closure p b c _) =>
      postOrder fuel p ++ postOrder fuel b ++ postOrder fuel c ++ [o]
    | _ => [o]

/-- The objects that `dispose_recursive` frees. -/
def disposed (o : Nat) : List Nat := postOrder h h.length o

def disposeRecursive (o : Nat) : Heap F := (disposed h o).foldl dispose h

end lists

/-- `new_closure_set`. -/
def newClosureSet (h : Heap F) (params procedure captured : Nat) : Nat × Heap F :=
  alloc h (.closure params procedure captured (if isNil h params then 0 else listLength h params))

/-- `copy_recursive`, with `copy_closure_recursive`. -/
def copyFrom : Nat → Heap F → Nat → Nat × Heap F
  | 0, h, _ => (0, h)
  | fuel + 1, h, o =>
    match cellAt h o with
    | none => (0, h)
    | some (.list a d) =>
      let car := copyFrom fuel h a
      let cdr := copyFrom fuel car.2 d
      alloc cdr.2 (.list car.1 cdr.1)
    | some (.closure p b c _) =>
      let params := copyFrom fuel h p
      let proc := copyFrom fuel params.2 b
      let capt := copyFrom fuel proc.2 c
      newClosureSet capt.2 params.1 proc.1 capt.1
    | some c => alloc h c

def copyRecursive (h : Heap F) (o : Nat) : Nat × Heap F := copyFrom h.length h o

section environment
variable [CFloat F] (h : Heap F)

/-- `make_pair`, which copies nothing whatever its flag says. -/
def makePair (key value : Nat) : Nat × Heap F :=
  let second := alloc h (.list value 0)
  alloc second.2 (.list key second.1)

def pairMatchesKey (pair key : Nat) : Bool := compare h (ith h pair 0) key

def lookupPairFrom : Nat → Nat → Nat → Nat
  | 0, _, _ => 0
  | fuel + 1, key, env =>
    if key = 0 ∨ env = 0 then 0
    else if !isList h env || !isAtom h key then 0
    else if pairMatchesKey h (car h env) key then car h env
    else lookupPairFrom fuel key (cdr h env)

def lookupPair (key env : Nat) : Nat := lookupPairFrom h h.length key env

/-- `lookup_entry`: the object whose `CAR` field is the entry. -/
def lookupEntry (key env : Nat) : Nat := cdr h (lookupPair h key env)

def lookup (key env : Nat) : Nat := car h (lookupEntry h key env)

/-- `create_environment`. -/
def createEnvironment : Heap F → List (Text × Primitive) → Nat × Heap F
  | h, [] => (0, h)
  | h, (name, f) :: rest =>
    let key := alloc h (.atom name)
    let value := alloc key.2 (.primitive f)
    let pair := makePair value.2 key.1 value.1
    let cdr := createEnvironment pair.2 rest
    alloc cdr.2 (.list pair.1 cdr.1)

end environment
end Lisp
