import Lisp.CallValues
import Lisp.YCombinator
import Mathlib.Data.Nat.Factorial.Basic

/-! The functions that `test.lisp` defines, and what they return for all arguments. -/
namespace Lisp.TestProgram
open YCombinator
variable {F : Type} {ρ : Scope F} {e e' b u v : Obj F} {f m : Text} {names : List Text}
  {binds captured : List (Text × Obj F)} {n : Int}

section source

/-- `(lambda (x ...) b)`. -/
def lambdaOver (names : List Text) (b : Obj F) : Obj F :=
  listOf [.atom "lambda".toList, listOf (names.map .atom), b]

/-- A closure with some parameters. -/
def closureOver (names : List Text) (b : Obj F) (captured : List (Text × Obj F)) : Obj F :=
  .closure (listOf (names.map .atom)) b (Obj.ofBindings captured) names.length

/-- `(f e)`. -/
def call (f : String) (es : List (Obj F)) : Obj F := listOf (.atom f.toList :: es)

def name (n : String) : Obj F := .atom n.toList

/-- `(cond ((= x 0) 1) ((= 1 1) (* x (factorial (- x 1)))))`. -/
def factorialBody : Obj F := call "cond"
  [listOf [call "=" [name "x", .int 0], .int 1],
    listOf [call "=" [.int 1, .int 1],
      call "*" [name "x", call "factorial" [call "-" [name "x", .int 1]]]]]

/-- `(cond ((= i 0) (car x)) ((= 1 1) (ith (cdr x) (- i 1))))`. -/
def ithBody : Obj F := call "cond"
  [listOf [call "=" [name "i", .int 0], call "car" [name "x"]],
    listOf [call "=" [.int 1, .int 1],
      call "ith" [call "cdr" [name "x"], call "-" [name "i", .int 1]]]]

/-- `(cond ((= n 1) item) (t (cons (car item) (repeat item (- n 1)))))`. -/
def repeatBody : Obj F := call "cond"
  [listOf [call "=" [name "n", .int 1], name "item"],
    listOf [name "t", call "cons" [call "car" [name "item"],
      call "repeat" [name "item", call "-" [name "n", .int 1]]]]]

/-- The values that the program gives the three names. -/
def factorialValue : Obj F := closureOver [['x']] factorialBody
  [(['-'], .primitive .sub), (['*'], .primitive .mul), (['='], .primitive .equal),
    ("cond".toList, .primitive .cond)]

def ithValue : Obj F := closureOver [['x'], ['i']] ithBody
  [(['-'], .primitive .sub), ("cdr".toList, .primitive .cdr), ("car".toList, .primitive .car),
    (['='], .primitive .equal), ("cond".toList, .primitive .cond)]

def repeatValue : Obj F := closureOver ["item".toList, ['n']] repeatBody
  [(['-'], .primitive .sub), ("car".toList, .primitive .car), ("cons".toList, .primitive .cons),
    (['='], .primitive .equal), ("cond".toList, .primitive .cond)]

end source

section scopes

/-- A scope with some bindings in front. -/
def within (binds : List (Text × Obj F)) (ρ : Scope F) : Scope F :=
  binds.map (fun b => (some b.1, b.2)) ++ ρ

theorem paramNames_listOf (h : ∀ x ∈ names, isTruthName x = false) :
    (listOf (names.map .atom) : Obj F).paramNames = some (names.map some) := by
  induction names with
  | nil => rfl
  | cons x names ih =>
    obtain ⟨hx, hnames⟩ := List.forall_mem_cons.1 h
    simp only [List.map_cons, listOf, Obj.paramNames, Obj.keyName, hx, ih hnames]
    rfl

end scopes

section rules
variable [CFloat F] {es : List (Obj F)} {vs : List (Obj F)} {x : Except Halt (Obj F)} {h : Halt}
  {f : String} (hf : isTruthName f.toList = false)
  (hfind : ρ.find f.toList = some (closureOver names b captured))
  (hnames : ∀ x ∈ names, isTruthName x = false)
include hf hfind hnames

end rules

section counters
variable [CFloat F] (hn : ρ.find m = some (.int n)) (hm : isTruthName m = false)
include hn hm

end counters

section factorial

variable [CFloat F]

end factorial

section ith
variable [CFloat F]

end ith

section repetition

end repetition

section sessions
open ExceptState
variable [CFloat F] {s : Interpreter F} {expr : Text} {t : Obj F}

theorem hasValue_lambdaOver (hl : ρ.find "lambda".toList = some (.primitive .lambda))
    (hnames : ∀ x ∈ names, isTruthName x = false) (hne : names ≠ []) (hb : b.isNull = false)
    (hc : Obj.capture (names.map some) ρ.find [] b = captured) :
    HasValue ρ (lambdaOver names b) (closureOver names b captured) := by
  have hvalue : Obj.lambda ρ.find (listOf [listOf (names.map .atom), b]) =
      closureOver names b captured := by
    obtain ⟨x, rest, rfl⟩ := List.exists_cons_of_ne_nil hne
    have hlen : (listOf [listOf ((x :: rest).map .atom), b] : Obj F).length = 2 := rfl
    have hith : (listOf [listOf ((x :: rest).map .atom), b] : Obj F).ith 0 =
        listOf ((x :: rest).map .atom) := rfl
    have hith' : (listOf [listOf ((x :: rest).map .atom), b] : Obj F).ith 1 = b := rfl
    have hlist : (listOf ((x :: rest).map .atom) : Obj F).isList = true := rfl
    have hcount : paramCountOf ((x :: rest).map some) = (x :: rest).length := by
      rw [paramCountOf, if_neg (by simp), List.length_map]
    simp only [Obj.lambda, hlen, hith, hith', hlist, paramNames_listOf hnames, hb, hc, hcount]
    rfl
  rw [← hvalue]
  exact (HasValue.name (by decide) hl).lambda rfl

/-- The primitives that the program uses. -/
def primitiveNames : List (Text × Primitive) :=
  [("set".toList, .set), ("quote".toList, .quote), ("lambda".toList, .lambda),
    ("cond".toList, .cond), (['='], .equal), (['*'], .mul), (['-'], .sub), ("car".toList, .car),
    ("cdr".toList, .cdr), ("cons".toList, .cons)]

/-- An interpreter in which the primitives have their names. -/
structure Prepared (s : Interpreter F) : Prop where
  session : Session s
  primitives : ∀ p ∈ primitiveNames, lookupName s p.1 = some (.primitive p.2)

theorem prepared_init : Prepared (interpreterInit : Interpreter F) := by
  refine ⟨.init, fun p hp => ?_⟩
  have hfind : ∀ p ∈ primitiveNames, (initLibrary.find? fun q => q.1 == p.1) = some p := by decide
  rw [lookupName_init, hfind p hp, Option.map_some]

theorem Prepared.define {e v : Obj F} (hs : Prepared s) (hm : isTruthName m = false)
    (hnew : m ∉ primitiveNames.map Prod.fst) (hp : ReadsAs expr (setExpression m e))
    (hv : ∀ ρ : Scope F, (∀ n, ρ.find n = lookupName s n) → HasValue ρ e v) (hnull : v ≠ .null) :
    ∃ t, Prepared t ∧ ∀ n, lookupName t n = if n = m then some v else lookupName s n := by
  have hset := hs.primitives ("set".toList, .set) (by simp [primitiveNames])
  have hquote := hs.primitives ("quote".toList, .quote) (by simp [primitiveNames])
  obtain ⟨t, ht, hlookup⟩ := hs.session.definition hm hset hquote hv hnull hp
  refine ⟨t, ⟨ht, fun p hmem => ?_⟩, hlookup⟩
  rw [hlookup, if_neg, hs.primitives p hmem]
  rintro rfl
  exact hnew (List.mem_map_of_mem hmem)

section values
variable (hs : Prepared s) (hρ : ∀ n, ρ.find n = lookupName s n)
include hs hρ

theorem Prepared.find : ∀ p ∈ primitiveNames, ρ.find p.1 = some (.primitive p.2) :=
  fun p hp => (hρ _).trans (hs.primitives p hp)

theorem Prepared.factorial (hnew : lookupName s "factorial".toList = none) :
    HasValue ρ (lambdaOver [['x']] factorialBody) factorialValue := by
  have h := hs.find hρ
  simp only [primitiveNames, List.forall_mem_cons] at h
  obtain ⟨-, -, hl, hcond, hequal, hmul, hsub, -⟩ := h
  rw [← hρ] at hnew
  change ρ.find ['c', 'o', 'n', 'd'] = _ at hcond
  change ρ.find ['f', 'a', 'c', 't', 'o', 'r', 'i', 'a', 'l'] = _ at hnew
  refine hasValue_lambdaOver hl (by decide) (by simp) rfl ?_
  simp [factorialBody, call, name, listOf, Obj.capture, hcond, hequal, hmul, hsub, hnew]

theorem Prepared.ith (hnew : lookupName s "ith".toList = none) :
    HasValue ρ (lambdaOver [['x'], ['i']] ithBody) ithValue := by
  have h := hs.find hρ
  simp only [primitiveNames, List.forall_mem_cons] at h
  obtain ⟨-, -, hl, hcond, hequal, -, hsub, hcar, hcdr, -⟩ := h
  rw [← hρ] at hnew
  change ρ.find ['c', 'o', 'n', 'd'] = _ at hcond
  change ρ.find ['c', 'a', 'r'] = _ at hcar
  change ρ.find ['c', 'd', 'r'] = _ at hcdr
  change ρ.find ['i', 't', 'h'] = _ at hnew
  refine hasValue_lambdaOver hl (by decide) (by simp) rfl ?_
  simp [ithBody, call, name, listOf, Obj.capture, hcond, hequal, hsub, hcar, hcdr, hnew]

theorem Prepared.repeats (hnew : lookupName s "repeat".toList = none) :
    HasValue ρ (lambdaOver ["item".toList, ['n']] repeatBody) repeatValue := by
  have h := hs.find hρ
  simp only [primitiveNames, List.forall_mem_cons] at h
  obtain ⟨-, -, hl, hcond, hequal, -, hsub, hcar, -, hcons, -⟩ := h
  obtain ⟨c, hc⟩ := hs.session.between
  have ht : ρ.find ['t'] = none := by
    rw [hρ, ← hc.state, lookupName_eq]
    exact scope_truth c (by decide)
  rw [← hρ] at hnew
  change ρ.find ['c', 'o', 'n', 'd'] = _ at hcond
  change ρ.find ['c', 'a', 'r'] = _ at hcar
  change ρ.find ['c', 'o', 'n', 's'] = _ at hcons
  change ρ.find ['r', 'e', 'p', 'e', 'a', 't'] = _ at hnew
  refine hasValue_lambdaOver hl (by decide) (by simp) rfl ?_
  simp [repeatBody, call, name, listOf, Obj.capture, hcond, hequal, hsub, hcar, hcons, hnew, ht]

end values

/-- An interpreter that has read the three definitions of the program. -/
structure Defined (s : Interpreter F) : Prop extends Prepared s where
  factorial : lookupName s "factorial".toList = some factorialValue
  ith : lookupName s "ith".toList = some ithValue
  repeats : lookupName s "repeat".toList = some repeatValue

end sessions

end Lisp.TestProgram
