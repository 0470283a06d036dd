import Mathlib.Data.List.Basic
import Lisp.Machine

/-! Lisp objects as trees (`lisp-objects.h`), with `NULL` as a tree of its own. -/
namespace Lisp

/-- A C string without its terminator. -/
abbrev Text := List Char

/-- The operations on C `float` that the interpreter uses; the arithmetic itself is
the machine's and stays abstract. -/
class CFloat (F : Type) where
  strtof : Text → F
  print : F → Text
  ofInt : Int → F
  toInt : F → Int
  neg : F → F
  add : F → F → F
  sub : F → F → F
  mul : F → F → F
  div : F → F → F
  eq : F → F → Bool
  lt : F → F → Bool
  le : F → F → Bool

/-- A float type for programs without float literals. -/
abbrev NoFloat := Unit

instance : CFloat NoFloat where
  strtof _ := ()
  print _ := "0".toList
  ofInt _ := ()
  toInt _ := 0
  neg _ := ()
  add _ _ := ()
  sub _ _ := ()
  mul _ _ := ()
  div _ _ := ()
  eq _ _ := true
  lt _ _ := false
  le _ _ := true

/-- The primitive procedures, by the C functions that implement them. -/
inductive Primitive where
  | quote | atom | eq | car | cdr | cons | cond | set | env | lambda | defmacro
  | add | sub | mul | divide | mod | equal | gt | gte | lt | lte
deriving DecidableEq, Repr

/-- An `obj*` read as the tree it points to; `null` is the `NULL` pointer. -/
inductive Obj (F : Type) where
  | null
  | atom (name : Text)
  | list (car cdr : Obj F)
  | primitive (f : Primitive)
  | closure (parameters procedure captured : Obj F) (nargs : Int)
  | int (value : Int)
  | float (value : F)
deriving DecidableEq, Repr

namespace Obj
variable {F : Type}

/-- The empty list is a list object with two `NULL` fields. -/
def nil : Obj F := .list .null .null

def isNull : Obj F → Bool
  | null => true
  | _ => false

end Obj
end Lisp
