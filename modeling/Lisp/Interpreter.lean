import Lisp.Heap
import Lisp.Library.Computation

/-! The state of the interpreter (`interpreter.h`) and its collector
(`garbage-collector.c`). -/
namespace Lisp
variable {F : Type}

/-- What stops an evaluation that does not return: behaviour that C leaves undefined, or
the bound of the model. -/
inductive Halt where
  | undefined
  | outOfFuel
deriving DecidableEq, Repr

/-- The moment at which `set` overwrites the binding of `slot`. -/
structure Overwrite (F : Type) where
  heap : Heap F
  env : Nat
  saved : List Nat
  allocated : List Nat
  slot : Nat
  held : List Nat
  stored : List Nat

/-- A record of the evaluation that no part of it reads: the objects that the calls in
progress still use, the environments that they will restore (`old_env`), the slots whose
values `set` or `init_env` stored, each overwriting, the number of evaluations that
returned `NULL`, and the number of `NULL` results that their caller did not check. -/
structure Trace (F : Type) where
  held : List Nat
  saved : List Nat
  stored : List Nat
  overwrites : List (Overwrite F)
  failures : Nat
  unchecked : Nat

/-- `LispInterpreter`, with the memory its pointers lead to. -/
structure Interpreter (F : Type) where
  heap : Heap F
  env : Nat
  allocated : List Nat
  trace : Trace F

abbrev Eval (F α : Type) := ExceptT Halt (StateM (Interpreter F)) α

/-- An operation on the heap alone. -/
def onHeap {α : Type} (f : Heap F → α × Heap F) : Eval F α := do
  let s ← get
  set { s with heap := (f s.heap).2 }
  return (f s.heap).1

def gcAdd (o : Nat) : Eval F Unit :=
  modify fun s => { s with allocated := s.allocated ++ [o] }

def gcAddRecursive (root : Nat) : Eval F Unit :=
  modify fun s =>
    { s with
      heap := (disposed s.heap root).foldl
        (fun h a => update h a fun o => { o with reachable := true }) s.heap
      allocated := s.allocated ++ disposed s.heap root }

/-- A new object that the collector knows. -/
def allocate (c : Cell F) : Eval F Nat := do
  let o ← onHeap fun h => alloc h c
  gcAdd o
  return o

/-- `mark_recursive`. -/
def markFrom : Nat → Heap F → Nat → Heap F
  | 0, h, _ => h
  | fuel + 1, h, o =>
    match objectAt h o with
    | none => h
    | some x =>
      if x.reachable then h else
      let h := update h o fun x => { x with reachable := true }
      match x.cell with
      | .list a d => markFrom fuel (markFrom fuel h a) d
      | .closure p b c _ => markFrom fuel (markFrom fuel (markFrom fuel h p) c) b
      | _ => h

def isReachable (h : Heap F) (o : Nat) : Bool := (objectAt h o).any Object.reachable

/-- The heap once the flags of the recorded objects are reset and `env` is marked. -/
def marked (s : Interpreter F) : Heap F :=
  let cleared := s.allocated.foldl
    (fun h o => update h o fun x => { x with reachable := false }) s.heap
  markFrom cleared.length cleared s.env

def collectGarbage (s : Interpreter F) : Interpreter F :=
  { s with
    heap := (s.allocated.filter fun o => !isReachable (marked s) o).foldl dispose (marked s)
    allocated := s.allocated.filter (isReachable (marked s)) }

/-- Runs `x` while its caller still uses `os`. -/
def holding {α : Type} (os : List Nat) (x : Eval F α) : Eval F α := do
  modify fun s => { s with trace.held := os ++ s.trace.held }
  let r ← x
  modify fun s => { s with trace.held := s.trace.held.drop os.length }
  return r

/-- Evaluates `body` in the environment `env`, then restores the one before. -/
def inEnvironment {α : Type} (env : Nat) (body : Eval F α) : Eval F α := do
  let old ← get
  modify fun s => { s with env := env, trace.saved := old.env :: s.trace.saved }
  let r ← body
  modify fun s => { s with env := old.env, trace.saved := s.trace.saved.tail }
  return r

/-- An evaluation whose result the caller takes without a test for `NULL`. -/
def notChecked (x : Eval F Nat) : Eval F Nat := do
  let r ← x
  modify fun s =>
    { s with trace.unchecked := s.trace.unchecked + if r = 0 then 1 else 0 }
  return r

end Lisp
