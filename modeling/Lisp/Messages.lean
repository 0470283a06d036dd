import Lisp.Library.Writing
import Lisp.Transcripts

/-! The messages that an evaluation writes to `stderr`, and that none fails without one. -/
namespace Lisp
open ExceptState
variable {F : Type}

/-- A computation that writes messages. -/
abbrev Logged (α : Type) := ExceptT Halt (StateM (List Output)) α

section source

/-- `LOG_ERROR` in a function. -/
def say (function : String) (message : Text) : Logged PUnit :=
  modify (· ++ [logError function message])

/-- A check, and the message if it fails. -/
def check (function : String) (passes : Bool) (message : Text) : Logged Bool := do
  if passes then return true else
  say function message
  return false

def checkNargs (function : String) (args : Obj F) (expected : Nat) : Logged Bool :=
  check function (args.length = expected) ("Expected ".toList ++ printInt expected ++
    " arguments, got ".toList ++ printInt args.length)

def checkNargsMin (function : String) (args : Obj F) (minimum : Nat) : Logged Bool :=
  check function (minimum ≤ args.length) ("Expected ".toList ++ printInt minimum ++
    " or more arguments, got ".toList ++ printInt args.length)

def checkNargsMax (function : String) (args : Obj F) (maximum : Int) : Logged Bool :=
  check function (args.length ≤ maximum) ("Expected ".toList ++ printInt maximum ++
    " or fewer arguments, got ".toList ++ printInt args.length)

/-- A message, after which `NULL` is returned. -/
def fail (function message : String) : Logged (Obj F) := do
  say function message.toList
  return .null

namespace Logged
variable (ev : Obj F → Logged (Obj F)) (args : Obj F)

def quote : Logged (Obj F) := do
  if !(← checkNargs "quote" args 1) then return .null else
  return args.ith 0

def atom : Logged (Obj F) := do
  if !(← checkNargs "atom" args 1) then return .null else
  let result ← ev (args.ith 0)
  return .ofBool (if result.isList then result.isNil else result.isAtom || result.isNumber)

/-- `eq`; what depends on how lists or closures share their parts is left out, as in `eqTree`. -/
def eq [CFloat F] : Logged (Obj F) := do
  if !(← checkNargs "eq" args 2) then return .null else
  let first ← ev (args.ith 0)
  if first.isNull then return .null else
  let second ← ev (args.ith 1)
  if second.isNull then return .null else
  match first.same second with
  | some same => return .ofBool same
  | none => throw .outOfFuel

def car : Logged (Obj F) := do
  if !(← checkNargs "car" args 1) then return .null else
  let argValue ← ev (args.ith 0)
  if argValue.isNull then fail "car" "Error evaluating argument" else
  if !argValue.isList then fail "car" "Argument is not a list" else
  return argValue.carValue

def cdr : Logged (Obj F) := do
  if !(← checkNargs "cdr" args 1) then return .null else
  let argValue ← ev (args.ith 0)
  if argValue.isNull then fail "cdr" "Error evaluating argument" else
  if !argValue.isList then fail "cdr" "Argument is not a list" else
  return argValue.cdrValue

def cons : Logged (Obj F) := do
  if !(← checkNargs "cons" args 2) then return .null else
  let y := args.ith 1
  if y.isNull then fail "cons" "Could not get second argument" else
  let car ← ev (args.ith 0)
  if car.isNull then fail "cons" "Error evaluating first argument" else
  let cdr ← ev y
  if cdr.isNull then fail "cons" "Error evaluating second argument" else
  if !cdr.isList then fail "cons" "Second argument is not list" else
  return .list car cdr

def cond (ev : Obj F → Logged (Obj F)) : Nat → Obj F → Logged (Obj F)
  | 0, _ => throw .outOfFuel
  | _ + 1, .null => return .nil
  | fuel + 1, .list pair rest => do
    if !pair.isList then fail "cond" "Conditional pair clause is not a list" else
    if pair.isNil then fail "cond" "Empty Conditional pair." else
    if pair.length ≠ 2 then
      say "cond" ("Conditional pair length was ".toList ++ printInt pair.length ++
        ", not 2.".toList)
      return .null
    else
    let predicate ← ev (pair.ith 0)
    if predicate.isPrimitive then fail "cond" "Cannot cast primitive function as bool." else
    if !predicate.isNil then
      if (pair.ith 1).isNull then fail "cond" "Predicate has no associated value" else
      let value ← ev (pair.ith 1)
      if value.isNull then fail "cond" "Error evaluating value for predicate" else
      return value
    else cond ev fuel rest
  | _ + 1, _ => fail "cond" "Arguments are not a list of pairs"

/-- What `lambda` says of the first element that is no parameter. -/
def parameterMessage : Obj F → String
  | .list key next =>
    match key with
    | .null => parameterMessage next
    | .atom n => if isTruthName n then "Truth atom can't be parameter" else parameterMessage next
    | key => if key.isNil then "Empty list can't be a parameter" else "Parameter was not an atom"
  | _ => ""

def lambda (find : Text → Option (Obj F)) : Logged (Obj F) := do
  if !(← checkNargsMin "lambda" args 1) then return .null else
  if !(← checkNargsMax "lambda" args 2) then return .null else
  if !(args.ith 0).isList then fail "lambda" "Lambda parameters are not a list" else
  if (args.ith 0).paramNames = none then fail "lambda" (parameterMessage (args.ith 0)) else
  if (args.ith 1).isNull then
    fail "lambda" "Error copying parameters and body of lambda declaration"
  else return Obj.lambda find args

def defmacro : Logged (Obj F) := fail "defmacro" "Macros not yet supported"

/-- The primitives that take two numbers. -/
def numbers (function : String) (op : Obj F → Obj F → Except Halt (Obj F)) :
    Logged (Obj F) := do
  if !(← checkNargs function args 2) then return .null else
  let first ← ev (args.ith 0)
  if first.isNull then return .null else
  if !first.isNumber then fail function "First argument did not evaluate to a number." else
  let second ← ev (args.ith 1)
  if second.isNull then return .null else
  if !second.isNumber then fail function "Second argument did not evaluate to a number." else
  match op first second with
  | .ok value => return value
  | .error e => throw e

variable [CFloat F]

/-- The primitives other than `set` and `env`, as in `primitiveMeaning`. -/
def primitive (find : Text → Option (Obj F)) (fuel : Nat) : Primitive → Logged (Obj F)
  | .quote => quote args
  | .atom => atom ev args
  | .eq => eq ev args
  | .car => car ev args
  | .cdr => cdr ev args
  | .cons => cons ev args
  | .cond => cond ev fuel args
  | .lambda => lambda args find
  | Primitive.defmacro => defmacro
  | .equal => numbers ev args "equal" (compareTree (· == ·) CFloat.eq)
  | .gt => numbers ev args "gt" (compareTree (fun x y => decide (y < x)) fun x y => CFloat.lt y x)
  | .gte =>
    numbers ev args "gte" (compareTree (fun x y => decide (y ≤ x)) fun x y => CFloat.le y x)
  | .lt => numbers ev args "lt" (compareTree (fun x y => decide (x < y)) CFloat.lt)
  | .lte => numbers ev args "lte" (compareTree (fun x y => decide (x ≤ y)) CFloat.le)
  | .add => numbers ev args "apply_arithmetic" (arithmeticTree fuel .add)
  | .sub => numbers ev args "apply_arithmetic" (arithmeticTree fuel .sub)
  | .mul => numbers ev args "apply_arithmetic" (arithmeticTree fuel .mul)
  | .divide => numbers ev args "apply_arithmetic" (arithmeticTree fuel .divide)
  | .mod => numbers ev args "apply_arithmetic" (arithmeticTree fuel .mod)
  | .set => throw .outOfFuel
  | .env => throw .outOfFuel

/-- `associate`: the operands are evaluated one after the other. -/
def associate (ev : Obj F → Logged (Obj F)) :
    Nat → List (Option Text) → List (Obj F) → Logged (Scope F)
  | 0, _, _ => throw .outOfFuel
  | fuel + 1, n :: ns, e :: es => do
    let value ← ev e
    let rest ← associate ev fuel ns es
    return (n, value) :: rest
  | _ + 1, _, _ => return []

def apply (ev : Names F → Obj F → Logged (Obj F)) (fuel : Nat) (names : Names F)
    (oper args : Obj F) : Logged (Obj F) :=
  match oper with
  | .null => return .null
  | .primitive f => primitive (ev names) args names fuel f
  | .closure p b k n => do
    if !(← checkNargsMax "apply" args n) then return .null else
    let binds ← associate (ev names) fuel (p.paramNames.getD []) args.cells
    if args.length < n then
      return .closure (p.drop args.length) b (Obj.bindTree (binds ++ k.bindings))
        (p.drop args.length).paramCount
    else ev (names.bind (k.bindings ++ binds)) b
  | .atom n => do
    say "apply" ("Cannot apply atom: \"".toList ++ n ++ "\" as function".toList)
    return .null
  | _ => fail "apply" "Non-procedure cannot be applied"

/-- `eval`, where the names stand for values. -/
def eval : Nat → Names F → Obj F → Logged (Obj F)
  | 0, _, _ => throw .outOfFuel
  | _ + 1, names, .atom n =>
    if isTruthName n then return .atom n else
    match (names n).getD .null with
    | .null => do
      say "eval" ("Variable: \"".toList ++ n ++ "\" not found in environment".toList)
      return .null
    | value => return value
  | fuel + 1, names, .list a d => do
    if (Obj.list a d).isNil then return .list a d else
    let oper ← eval fuel names a
    apply (eval fuel) fuel names oper d
  | _ + 1, _, t => return t

/-- `eval` of one expression of a session, as in `command`. -/
def command (fuel : Nat) (names : Names F) (t : Obj F) : Logged (Obj F × Names F) :=
  match names.definition t with
  | some (n, e) => do
    let v ← eval (fuel - 3) names e
    if v.isNull then
      say "set" "Error evaluating right-hand-side".toList
      return (v, names)
    else return (v, names.define n v)
  | none => do
    let v ← eval fuel names t
    return (v, names)

end Logged
end source

section values
variable {t a d u v p b k : Obj F} {n : Text} {i : Nat} {find : Text → Option (Obj F)}

namespace Obj

/-- An expression as a program has it: no operand is missing. -/
def Spelled : Obj F → Prop
  | .list a d => a.isNull = true ∧ d.isNull = true ∨
    a.isNull = false ∧ a.Spelled ∧ d.Spelled ∧ d.IsTail ∧ d.isNil = false
  | .primitive _ => False
  | .closure _ _ _ _ => False
  | _ => True

/-- A value without a missing part, or `NULL`, which a call may bind a parameter to. -/
inductive Whole : Obj F → Prop where
  | null : Whole .null
  | atom (name : Text) : Whole (.atom name)
  | int (value : Int) : Whole (.int value)
  | float (value : F) : Whole (.float value)
  | primitive (f : Primitive) : Whole (.primitive f)
  | nil : Whole .nil
  | list {a d : Obj F} (hnull : a.isNull = false) (ha : Whole a) (hd : Whole d) : Whole (.list a d)
  | closure {p b k : Obj F} {n : Int} (hnull : b.isNull = false) (hb : b.Spelled)
      (hk : ∀ binding ∈ k.bindings, Whole binding.2) : Whole (.closure p b k n)

theorem eq_null (h : t.isNull = true) : t = .null := by
  cases t <;> first | rfl | cases h

theorem isNull_of_isList (h : t.isList = true) : t.isNull = false := by
  cases t <;> first | rfl | cases h

theorem Spelled.whole (ht : t.Spelled) : t.Whole := by
  induction t with
  | null => exact .null
  | atom n => exact .atom n
  | int z => exact .int z
  | float x => exact .float x
  | list a d iha ihd =>
    rcases ht with ⟨ha, hd⟩ | ⟨hnull, ha, hd, -, -⟩
    · rw [eq_null ha, eq_null hd]
      exact .nil
    · exact .list hnull (iha ha) (ihd hd)
  | primitive f => exact ht.elim
  | closure p b k n => exact ht.elim

/-- The operands of an application are there. -/
structure Operands (args : Obj F) : Prop where
  spelled : args.Spelled
  tail : args.IsTail
  notNil : args.isNil = false

theorem Operands.cons (h : (Obj.list a d).Operands) :
    a.isNull = false ∧ a.Spelled ∧ d.Operands := by
  rcases h.spelled with ⟨ha, hd⟩ | ⟨hnull, ha, hd, htail, hnil⟩
  · have hnil := h.notNil
    rw [eq_null ha, eq_null hd] at hnil
    cases hnil
  · exact ⟨hnull, ha, hd, htail, hnil⟩

theorem Operands.spelled_ith (h : t.Operands) (i : Nat) : (t.ith i).Spelled := by
  induction i generalizing t with
  | zero =>
    cases t with
    | list a d => exact h.cons.2.1
    | _ => trivial
  | succ i ih =>
    cases t with
    | list a d => exact ih h.cons.2.2
    | _ => trivial

theorem Operands.ith (h : t.Operands) (hi : i < t.length) :
    (t.ith i).isNull = false ∧ (t.ith i).Spelled := by
  refine ⟨?_, h.spelled_ith i⟩
  induction i generalizing t with
  | zero =>
    cases t with
    | list a d => exact h.cons.1
    | null => cases hi
    | _ => exact h.tail.elim
  | succ i ih =>
    cases t with
    | list a d => exact ih h.cons.2.2 (Nat.lt_of_succ_lt_succ hi)
    | null => cases hi
    | _ => exact h.tail.elim

theorem Operands.cells (h : t.Operands) : ∀ e ∈ t.cells, e.isNull = false ∧ e.Spelled := by
  induction t with
  | list a d _ ih =>
    intro e he
    rcases List.mem_cons.1 he with rfl | he
    · exact ⟨h.cons.1, h.cons.2.1⟩
    · exact ih h.cons.2.2 e he
  | _ =>
    intro e he
    cases he

theorem whole_ofBool (c : Bool) :
    (Obj.ofBool c : Obj F).Whole ∧ (Obj.ofBool c : Obj F).isNull = false := by
  cases c with
  | true => exact ⟨.atom _, rfl⟩
  | false => exact ⟨.nil, rfl⟩

theorem Whole.carValue (h : v.Whole) (hlist : v.isList = true) :
    v.carValue.Whole ∧ v.carValue.isNull = false := by
  cases h with
  | nil => exact ⟨.nil, rfl⟩
  | @list a d hnull ha hd =>
    have hnil : (Obj.list a d).isNil = false := by simp [isNil_list, hnull]
    simpa [Obj.carValue, Obj.isList, hnil, Obj.ith] using And.intro ha hnull
  | _ => cases hlist

theorem Whole.cdrValue (h : v.Whole) (hlist : v.isList = true) :
    v.cdrValue.Whole ∧ v.cdrValue.isNull = false := by
  cases h with
  | nil => exact ⟨.nil, rfl⟩
  | @list a d hnull ha hd =>
    have hnil : (Obj.list a d).isNil = false := by simp [isNil_list, hnull]
    cases hd0 : d.isNull with
    | true =>
      rw [show (Obj.list a d).cdrValue = .nil by
        simp [Obj.cdrValue, Obj.isList, Obj.cdrList, hnil, hd0]]
      exact ⟨.nil, rfl⟩
    | false =>
      simpa [Obj.cdrValue, Obj.isList, Obj.cdrList, hnil, hd0] using hd
  | _ => cases hlist

/-- The captured values are among those that the names stand for. -/
theorem capture_whole {params : List (Option Text)} {captured : List (Text × Obj F)}
    (hfind : ∀ n v, find n = some v → v.Whole) (hc : ∀ b ∈ captured, b.2.Whole) :
    ∀ b ∈ capture params find captured t, b.2.Whole := by
  induction t generalizing captured with
  | atom n =>
    intro b hb
    simp only [capture] at hb
    split_ifs at hb
    · exact hc b hb
    · cases hn : find n with
      | none =>
        rw [hn] at hb
        exact hc b hb
      | some v =>
        rw [hn] at hb
        rcases List.mem_cons.1 hb with rfl | hb
        · exact hfind n v hn
        · exact hc b hb
  | list a d iha ihd => exact ihd (iha hc)
  | _ => exact hc

theorem bindings_ofBindings (binds : List (Text × Obj F)) :
    (ofBindings binds).bindings = binds.map fun b => (some b.1, b.2) := by
  rw [ofBindings_eq, bindings_bindTree]

end Obj

theorem spelled_parseAtom [CFloat F] (e : Text) : (parseAtom e : Obj F × Nat).1.isNull = false ∧
    (parseAtom e : Obj F × Nat).1.Spelled := by
  rcases parseAtom_cases (F := F) e with ⟨z, hz⟩ | ⟨x, hx⟩ | ⟨n, hn⟩
  · rw [hz]
    exact ⟨rfl, trivial⟩
  · rw [hx]
    exact ⟨rfl, trivial⟩
  · rw [hn]
    exact ⟨rfl, trivial⟩

mutual

theorem SExpr.spelled [CFloat F] : (e : SExpr) →
    (e.toObj : Obj F).isNull = false ∧ (e.toObj : Obj F).Spelled
  | .token name => by
    rw [SExpr.toObj]
    exact spelled_parseAtom name
  | .paren [] => by
    rw [SExpr.toObj]
    exact ⟨rfl, Or.inl ⟨rfl, rfl⟩⟩
  | .paren (e :: es) => by
    rw [SExpr.toObj]
    obtain ⟨hnull, he⟩ := e.spelled
    have hes := SExpr.operands es
    exact ⟨rfl, Or.inr ⟨hnull, he, hes.spelled, hes.tail, hes.notNil⟩⟩
  | .quote e => by
    rw [SExpr.toObj]
    obtain ⟨hnull, he⟩ := e.spelled
    have hoperand : (Obj.list (e.toObj : Obj F) .null).Spelled :=
      Or.inr ⟨hnull, he, trivial, trivial, rfl⟩
    refine ⟨rfl, Or.inr ⟨rfl, trivial, hoperand, trivial, ?_⟩⟩
    simp [isNil_list, hnull]

theorem SExpr.operands [CFloat F] : (es : List SExpr) → (SExpr.elementsToObj es : Obj F).Operands
  | [] => by
    rw [SExpr.elementsToObj]
    exact ⟨trivial, trivial, rfl⟩
  | e :: es => by
    rw [SExpr.elementsToObj]
    obtain ⟨hnull, he⟩ := e.spelled
    have hes := SExpr.operands es
    refine ⟨Or.inr ⟨hnull, he, hes.spelled, hes.tail, hes.notNil⟩, trivial, ?_⟩
    simp [isNil_list, hnull]

end

end values

section reports
variable {ev : Obj F → Logged (Obj F)} {evT : Obj F → Except Halt (Obj F)}
  {m : Logged (Obj F)} {x : Except Halt (Obj F)} {args t v : Obj F} {out : List Output}
  {find : Text → Option (Obj F)} {function message : String} {fuel : Nat}

/-- The value misses no part, and there is a message if it is `NULL`. -/
def Reports (v : Obj F) (out : List Output) : Prop :=
  v.Whole ∧ (v.isNull = true → out ≠ [])

theorem Reports.null (h : out ≠ []) : Reports (.null : Obj F) out := ⟨.null, fun _ => h⟩

theorem Reports.whole (h : v.Whole ∧ v.isNull = false) : Reports v out :=
  ⟨h.1, fun hnull => absurd (h.2.symm.trans hnull) Bool.false_ne_true⟩

theorem Reports.after {before : List Output} (h : Reports v out) : Reports v (before ++ out) :=
  ⟨h.1, fun hnull => List.append_ne_nil_of_right_ne_nil _ (h.2 hnull)⟩

/-- `NULL` may be passed on: there is a message already. -/
theorem Reports.passed (h : Reports v out) (hnull : v.isNull = true) :
    Reports (.null : Obj F) (out ++ []) :=
  .null (by simpa using h.2 hnull)

theorem appends_say {text : Text} : Appends (say function text) (.ok ⟨⟩) fun _ l => l ≠ [] :=
  Appends.entry (List.cons_ne_nil _ _)

theorem appends_said {text : Text} :
    Appends (do say function text; return (.null : Obj F)) (.ok .null) Reports :=
  appends_say.next fun _ hl => .value (.null (by simpa using hl))

theorem appends_fail : Appends (fail function message : Logged (Obj F)) (.ok .null) Reports :=
  appends_said

/-- A message after those of an operand. -/
theorem appends_failed : Appends (fail function message : Logged (Obj F)) (.ok .null)
    fun v l => Reports v (out ++ l) :=
  appends_fail.mono fun _ _ _ h => h.after

/-- A check of the number of arguments, and what is done if it passes. -/
theorem appends_check {passes : Prop} [Decidable passes] {text : Text}
    (hrest : passes → Appends m x Reports) :
    Appends (do if !(← check function passes text) then return .null else m)
      (if ¬passes then .ok .null else x) Reports := by
  have hcheck : Appends (check function passes text) (.ok (decide passes))
      fun ok l => ok = false → l ≠ [] := by
    unfold check
    cases decide passes with
    | true => exact .value (by simp)
    | false => exact appends_say.next fun _ hl => .value (by simpa using hl)
  refine hcheck.next fun l hl => ?_
  by_cases hp : passes
  · simp only [hp, decide_true, not_true_eq_false, Bool.not_true, Bool.false_eq_true, if_false]
    exact (hrest hp).mono fun v l _ h => h.after
  · simp only [hp, decide_false, not_false_eq_true, Bool.not_false, if_true]
    exact .value (.null (by simpa using hl (by simp [hp])))

section primitives
variable (hev : ∀ e : Obj F, e.isNull = false → e.Spelled → Appends (ev e) (evT e) Reports)
  (hargs : args.Operands)

include hargs in
theorem appends_quote : Appends (Logged.quote args) (.ok (quoteTree args)) Reports := by
  have hx : (.ok (quoteTree args) : Except Halt (Obj F)) =
      if args.length ≠ 1 then .ok .null else .ok (args.ith 0) := by
    unfold quoteTree
    split_ifs <;> rfl
  rw [hx]
  refine appends_check fun hlen => ?_
  obtain ⟨hnull, he⟩ := hargs.ith (i := 0) (by omega)
  exact .value (.whole ⟨he.whole, hnull⟩)

include hev hargs

theorem appends_atom : Appends (Logged.atom ev args) (atomTree evT args) Reports := by
  refine appends_check fun hlen => ?_
  obtain ⟨hnull, he⟩ := hargs.ith (i := 0) (by omega)
  exact (hev _ hnull he).bind fun v l _ _ => .value (.whole (Obj.whole_ofBool _))

/-- The list that `car` and `cdr` look into. -/
theorem appends_parts {part : Obj F → Obj F}
    (hpart : ∀ v : Obj F, v.isList = false → part v = .null)
    (hwhole : ∀ v : Obj F, v.Whole → v.isList = true → (part v).Whole ∧ (part v).isNull = false) :
    Appends (do
      if !(← checkNargs function args 1) then return .null else
      let argValue ← ev (args.ith 0)
      if argValue.isNull then fail function "Error evaluating argument" else
      if !argValue.isList then fail function "Argument is not a list" else
      return part argValue)
    (if args.length ≠ 1 then .ok .null else do
      let v ← evT (args.ith 0)
      return part v) Reports := by
  refine appends_check fun hlen => ?_
  obtain ⟨hnull, he⟩ := hargs.ith (i := 0) (by omega)
  refine (hev _ hnull he).bind fun v l _ hv => ?_
  cases hlist : v.isList with
  | false =>
    rw [hpart v hlist]
    simp only [Bool.not_false, if_true]
    split_ifs
    · exact appends_failed
    · exact appends_failed
  | true =>
    simp only [Obj.isNull_of_isList hlist, Bool.not_true, Bool.false_eq_true, if_false]
    exact .value (.whole (hwhole v hv.1 hlist))

theorem appends_car : Appends (Logged.car ev args) (carTree evT args) Reports :=
  appends_parts hev hargs (fun v hlist => by simp [Obj.carValue, hlist])
    fun _ hv hlist => hv.carValue hlist

theorem appends_cdr : Appends (Logged.cdr ev args) (cdrTree evT args) Reports :=
  appends_parts hev hargs (fun v hlist => by simp [Obj.cdrValue, hlist])
    fun _ hv hlist => hv.cdrValue hlist

theorem appends_cons : Appends (Logged.cons ev args) (consTree evT args) Reports := by
  refine appends_check fun hlen => ?_
  obtain ⟨hnull₁, he₁⟩ := hargs.ith (i := 0) (by omega)
  obtain ⟨hnull₂, he₂⟩ := hargs.ith (i := 1) (by omega)
  simp only [hnull₂, Bool.false_eq_true, if_false]
  refine (hev _ hnull₁ he₁).bind fun u l _ hu => ?_
  cases hu0 : u.isNull with
  | true => exact appends_failed
  | false =>
    simp only [Bool.false_eq_true, if_false]
    refine (hev _ hnull₂ he₂).bind fun v l' _ hv => ?_
    cases hlist : v.isList with
    | false =>
      rw [show u.consValue v = .null by simp [Obj.consValue, hlist]]
      simp only [Bool.not_false, if_true]
      split_ifs
      · exact appends_failed.mono fun _ _ _ h => h.after
      · exact appends_failed.mono fun _ _ _ h => h.after
    | true =>
      rw [show u.consValue v = .list u v by simp [Obj.consValue, hu0, hlist]]
      simp only [Obj.isNull_of_isList hlist, Bool.not_true, Bool.false_eq_true, if_false]
      exact .value (.whole ⟨.list hu0 hu.1 hv.1, rfl⟩)

theorem appends_eq [CFloat F] : Appends (Logged.eq ev args) (eqTree evT args) Reports := by
  refine appends_check fun hlen => ?_
  obtain ⟨hnull₁, he₁⟩ := hargs.ith (i := 0) (by omega)
  obtain ⟨hnull₂, he₂⟩ := hargs.ith (i := 1) (by omega)
  refine (hev _ hnull₁ he₁).bind fun u l _ hu => ?_
  cases hu0 : u.isNull with
  | true => exact .value (hu.passed hu0)
  | false =>
    simp only [Bool.false_eq_true, if_false]
    refine (hev _ hnull₂ he₂).bind fun v l' _ hv => ?_
    cases hv0 : v.isNull with
    | true => exact .value (hv.passed hv0).after
    | false =>
      simp only [Bool.false_eq_true, if_false]
      cases u.same v with
      | some same => exact .value (.whole (Obj.whole_ofBool same))
      | none => exact .halt

/-- The two operands of an operation on numbers. -/
theorem appends_numbers {op : Obj F → Obj F → Except Halt (Obj F)}
    (hop : ∀ u v w, op u v = .ok w → w.Whole ∧ w.isNull = false) :
    Appends (Logged.numbers ev args function op) (numbersTree evT args op) Reports := by
  have hnumber : ∀ v : Obj F, v.isNull = true → v.isNumber = false := fun v hv => by
    rw [Obj.eq_null hv]
    rfl
  refine appends_check fun hlen => ?_
  obtain ⟨hnull₁, he₁⟩ := hargs.ith (i := 0) (by omega)
  obtain ⟨hnull₂, he₂⟩ := hargs.ith (i := 1) (by omega)
  refine (hev _ hnull₁ he₁).bind fun u l _ hu => ?_
  cases hu0 : u.isNull with
  | true =>
    simp only [hnumber u hu0, Bool.not_false, if_true]
    exact .value (hu.passed hu0)
  | false =>
    simp only [Bool.false_eq_true, if_false]
    cases u.isNumber with
    | false => exact appends_failed
    | true =>
      simp only [Bool.not_true, Bool.false_eq_true, if_false]
      refine (hev _ hnull₂ he₂).bind fun v l' _ hv => ?_
      cases hv0 : v.isNull with
      | true =>
        simp only [hnumber v hv0, Bool.not_false, if_true]
        exact .value (hv.passed hv0).after
      | false =>
        simp only [Bool.false_eq_true, if_false]
        cases v.isNumber with
        | false => exact appends_failed.mono fun _ _ _ h => h.after
        | true =>
          simp only [Bool.not_true, Bool.false_eq_true, if_false]
          cases hw : op u v with
          | ok w => exact .value (.whole (hop u v w hw))
          | error e => exact .halt

omit hargs in
theorem appends_cond (hargs : args.Operands) :
    Appends (Logged.cond ev fuel args) (condTree evT fuel args) Reports := by
  induction fuel generalizing args with
  | zero => exact .halt
  | succ fuel ih =>
    cases args with
    | null => exact .value (.whole ⟨.nil, rfl⟩)
    | list pair rest =>
      obtain ⟨hpair0, hpair, hrest⟩ := hargs.cons
      rw [Logged.cond, condTree]
      cases hlist : pair.isList with
      | false => exact appends_fail
      | true =>
        cases hnil : pair.isNil with
        | true => exact appends_fail
        | false =>
          simp only [Bool.not_true, Bool.false_eq_true, if_false]
          by_cases hlen : pair.length = 2
          · have htail : pair.IsTail := by
              cases pair <;> trivial
            have hoperands : pair.Operands := ⟨hpair, htail, hnil⟩
            obtain ⟨hnull₁, he₁⟩ := hoperands.ith (i := 0) (by omega)
            obtain ⟨hnull₂, he₂⟩ := hoperands.ith (i := 1) (by omega)
            simp only [hlen, hnull₂, ne_eq, not_true_eq_false, Bool.false_eq_true, if_false]
            refine (hev _ hnull₁ he₁).bind fun p l _ hp => ?_
            cases p.isPrimitive with
            | true => exact appends_failed
            | false =>
              simp only [Bool.false_eq_true, if_false]
              cases p.isNil with
              | true => exact (ih hrest).mono fun _ _ _ h => h.after
              | false =>
                simp only [Bool.not_false, if_true]
                rw [← bind_pure (evT (pair.ith 1))]
                refine (hev _ hnull₂ he₂).bind fun v l' _ hv => ?_
                cases hv0 : v.isNull with
                | true =>
                  rw [Obj.eq_null hv0]
                  exact appends_failed.mono fun _ _ _ h => h.after
                | false => exact .value (.whole ⟨hv.1, hv0⟩)
          · simp only [hlen, ne_eq, not_false_eq_true, if_true]
            exact appends_said
    | _ => exact hargs.tail.elim

omit hev in
theorem appends_lambda (hfind : ∀ n v, find n = some v → v.Whole) :
    Appends (Logged.lambda args find) (.ok (Obj.lambda find args)) Reports := by
  have hfew : (.ok (Obj.lambda find args) : Except Halt (Obj F)) =
      if ¬1 ≤ args.length then .ok .null else .ok (Obj.lambda find args) := by
    unfold Obj.lambda
    split_ifs <;> first | rfl | omega
  have hmany : (.ok (Obj.lambda find args) : Except Halt (Obj F)) =
      if ¬(args.length : Int) ≤ 2 then .ok .null else .ok (Obj.lambda find args) := by
    unfold Obj.lambda
    split_ifs <;> first | rfl | omega
  rw [hfew]
  refine appends_check fun hmin => ?_
  rw [hmany]
  refine appends_check fun hmax => ?_
  have hmin : ¬args.length < 1 := by omega
  have hmax : ¬2 < args.length := by omega
  cases hlist : (args.ith 0).isList with
  | false =>
    rw [show Obj.lambda find args = .null by simp [Obj.lambda, hlist]]
    exact appends_fail
  | true =>
    simp only [Bool.not_true, Bool.false_eq_true, if_false]
    cases hnames : (args.ith 0).paramNames with
    | none =>
      rw [show Obj.lambda find args = .null by simp [Obj.lambda, hnames]]
      exact appends_fail
    | some names =>
      simp only [reduceCtorEq, if_false]
      cases hbody : (args.ith 1).isNull with
      | true =>
        rw [show Obj.lambda find args = .null by simp [Obj.lambda, hnames, hbody]]
        exact appends_fail
      | false =>
        have hclosure : Obj.lambda find args = .closure (args.ith 0) (args.ith 1)
            (.ofBindings (Obj.capture names find [] (args.ith 1))) (paramCountOf names) := by
          simp [Obj.lambda, hmin, hmax, hlist, hnames, hbody]
        have hcaptured : ∀ b ∈ Obj.capture names find [] (args.ith 1), b.2.Whole :=
          Obj.capture_whole hfind (by simp)
        rw [hclosure]
        refine .value (.whole ⟨.closure hbody (hargs.spelled_ith 1) fun b hb => ?_, rfl⟩)
        rw [Obj.bindings_ofBindings] at hb
        obtain ⟨binding, hbinding, rfl⟩ := List.mem_map.1 hb
        exact hcaptured binding hbinding

variable [CFloat F]

omit hargs hev in
theorem whole_compareTree {intOp : Int → Int → Bool} {floatOp : F → F → Bool} (u v w : Obj F)
    (h : compareTree intOp floatOp u v = .ok w) : w.Whole ∧ w.isNull = false := by
  unfold compareTree at h
  split at h
  · exact Except.ok.inj h ▸ Obj.whole_ofBool _
  · exact Except.ok.inj h ▸ Obj.whole_ofBool _

omit hargs hev in
theorem whole_arithmeticTree {f : Primitive} (u v w : Obj F)
    (h : arithmeticTree fuel f u v = .ok w) : w.Whole ∧ w.isNull = false := by
  unfold arithmeticTree at h
  split at h
  · split at h
    · exact Except.ok.inj h ▸ ⟨.int _, rfl⟩
    · cases h
  · obtain ⟨z, -, h⟩ := ok_of_bind h
    exact Except.ok.inj h ▸ ⟨.int _, rfl⟩

theorem appends_primitive {names : Names F} (hnames : ∀ n v, names n = some v → v.Whole)
    (f : Primitive) :
    Appends (Logged.primitive ev args names fuel f) (primitiveMeaning evT args names fuel f)
      Reports := by
  cases f with
  | quote => exact appends_quote hargs
  | atom => exact appends_atom hev hargs
  | eq => exact appends_eq hev hargs
  | car => exact appends_car hev hargs
  | cdr => exact appends_cdr hev hargs
  | cons => exact appends_cons hev hargs
  | cond => exact appends_cond hev hargs
  | lambda => exact appends_lambda hargs hnames
  | defmacro => exact appends_fail
  | set | env => exact .halt
  | equal | gt | gte | lt | lte => exact appends_numbers hev hargs whole_compareTree
  | add | sub | mul | divide | mod => exact appends_numbers hev hargs whole_arithmeticTree

end primitives

section evaluation
variable [CFloat F] {names : Names F} {oper : Obj F} {evN : Names F → Obj F → Logged (Obj F)}
  {evM : Names F → Obj F → Except Halt (Obj F)}

/-- Names stand for values without a missing part. -/
def Names.Whole (names : Names F) : Prop := ∀ n v, names n = some v → v.Whole

omit [CFloat F] in
theorem Names.Whole.bind {binds : Scope F} (h : names.Whole) (hb : ∀ b ∈ binds, b.2.Whole) :
    (names.bind binds).Whole := by
  intro n v hv
  rw [Names.bind, Option.or_eq_some_iff] at hv
  rcases hv with hv | ⟨-, hv⟩
  · obtain ⟨b, hfind, rfl⟩ := Option.map_eq_some_iff.1 hv
    exact hb b (List.mem_of_find?_eq_some hfind)
  · exact h n v hv

omit [CFloat F] in
/-- The values of the operands are bound, `NULL` as well. -/
theorem appends_associate {ns : List (Option Text)} {es : List (Obj F)}
    (hev : ∀ e : Obj F, e.isNull = false → e.Spelled → Appends (ev e) (evT e) Reports)
    (hes : ∀ e ∈ es, e.isNull = false ∧ e.Spelled) :
    Appends (Logged.associate ev fuel ns es) (associateTree fuel ns (es.map evT))
      fun binds _ => ∀ b ∈ binds, b.2.Whole := by
  induction fuel generalizing ns es with
  | zero => exact .halt
  | succ fuel ih =>
    cases ns with
    | nil => exact .value (by simp)
    | cons n ns =>
      cases es with
      | nil => exact .value (by simp)
      | cons e es =>
        obtain ⟨hnull, he⟩ := hes e List.mem_cons_self
        refine (hev e hnull he).bind fun v _ _ hv => ?_
        refine (ih fun e he => hes e (List.mem_cons_of_mem _ he)).bind fun rest _ _ hrest => ?_
        refine .value fun b hb => ?_
        rcases List.mem_cons.1 hb with rfl | hb
        · exact hv.1
        · exact hrest b hb

/-- A call of a procedure, whose operands and whose body are evaluated alike. -/
theorem appends_apply
    (hev : ∀ (names : Names F) (e : Obj F), names.Whole → e.isNull = false → e.Spelled →
      Appends (evN names e) (evM names e) Reports)
    (hnames : names.Whole) (hoper : oper.Whole) (hnull : oper.isNull = false)
    (hargs : args.Operands) :
    Appends (Logged.apply evN fuel names oper args) (applyMeaning evM fuel names oper args)
      Reports := by
  cases hoper with
  | null => cases hnull
  | atom n => exact appends_said
  | int | float | nil | list => exact appends_fail
  | primitive f => exact appends_primitive (hev names · hnames) hargs hnames f
  | @closure p b k n hb0 hb hk =>
    change Appends _ (if n < (args.length : Int) then Except.ok Obj.null else _) Reports
    rw [if_congr (not_le (a := (args.length : Int)) (b := n)).symm rfl rfl]
    refine appends_check fun hlen => ?_
    refine (appends_associate (hev names · hnames) hargs.cells).bind fun binds l _ hbinds => ?_
    by_cases hfewer : (args.length : Int) < n
    · simp only [hfewer, if_true]
      refine .value (.whole ⟨.closure hb0 hb fun binding hbinding => ?_, rfl⟩)
      rw [bindings_bindTree] at hbinding
      rcases List.mem_append.1 hbinding with h | h
      · exact hbinds binding h
      · exact hk binding h
    · simp only [hfewer, if_false]
      refine (hev _ b (hnames.bind fun binding hbinding => ?_) hb0 hb).mono fun _ _ _ h => h.after
      rcases List.mem_append.1 hbinding with h | h
      · exact hk binding h
      · exact hbinds binding h

/-- What `eval` writes does not change its value, and it returns no `NULL` without a message. -/
theorem appends_eval {fuel : Nat} (hnames : names.Whole) (hnull : t.isNull = false)
    (ht : t.Spelled) : Appends (Logged.eval fuel names t) (meaning fuel names t) Reports := by
  induction fuel generalizing names t with
  | zero => exact .halt
  | succ fuel ih =>
    cases t with
    | null => cases hnull
    | atom n =>
      rw [Logged.eval, meaning]
      cases isTruthName n with
      | true => exact .value (.whole ⟨.atom n, rfl⟩)
      | false =>
        have hvalue : ((names n).getD .null).Whole := by
          cases hn : names n with
          | none => exact .null
          | some v => exact hnames n v hn
        simp only [Bool.false_eq_true, if_false]
        generalize (names n).getD .null = v at hvalue
        cases hnull : v.isNull with
        | true =>
          rw [Obj.eq_null hnull]
          exact appends_said
        | false => cases v <;> first | exact .value (.whole ⟨hvalue, rfl⟩) | cases hnull
    | list a d =>
      rw [Logged.eval, meaning]
      rcases ht with ⟨ha, hd⟩ | ⟨hoper, ha, hd, htail, hnil⟩
      · rw [Obj.eq_null ha, Obj.eq_null hd]
        exact .value (.whole ⟨.nil, rfl⟩)
      · simp only [isNil_list, hoper, Bool.false_and, Bool.false_eq_true, if_false]
        refine (ih hnames hoper ha).bind fun oper l _ hvalue => ?_
        cases hoper0 : oper.isNull with
        | true =>
          rw [Obj.eq_null hoper0]
          exact .value (hvalue.passed hoper0)
        | false =>
          refine Appends.mono (appends_apply (fun names e hnames hnull he => ih hnames hnull he)
            hnames hvalue.1 hoper0 ⟨hd, htail, hnil⟩) fun _ _ _ h => h.after
    | int z => exact .value (.whole ⟨.int z, rfl⟩)
    | float x => exact .value (.whole ⟨.float x, rfl⟩)
    | primitive f => exact ht.elim
    | closure p b k n => exact ht.elim

/-- An expression of a session leaves the names with values that miss no part. -/
theorem appends_command (hnames : names.Whole) (hnull : t.isNull = false) (ht : t.Spelled) :
    Appends (Logged.command fuel names t) (command fuel names t)
      fun reply l => Reports reply.1 l ∧ reply.2.Whole := by
  unfold Logged.command command
  cases hdef : names.definition t with
  | some definition =>
    obtain ⟨n, e⟩ := definition
    obtain ⟨rfl, -, -, -⟩ := definition_eq hdef
    have hoperands : (setExpression n e : Obj F).Operands := ⟨ht, trivial, rfl⟩
    obtain ⟨he0, he⟩ : e.isNull = false ∧ e.Spelled := hoperands.ith (i := 2) (Nat.le_refl 3)
    refine (appends_eval hnames he0 he).bind fun v l _ hv => ?_
    cases hv0 : v.isNull with
    | true =>
      exact appends_say.next fun _ hl => .value ⟨⟨hv.1, fun _ => by simp [hl]⟩, hnames⟩
    | false =>
      refine .value ⟨.whole ⟨hv.1, hv0⟩, fun m w hw => ?_⟩
      simp only [Names.define] at hw
      split_ifs at hw
      · exact Option.some.inj hw ▸ hv.1
      · exact hnames m w hw
  | none =>
    refine (appends_eval hnames hnull ht).bind fun v l _ hv => .value ⟨?_, hnames⟩
    rw [List.append_nil]
    exact hv

end evaluation
end reports

section sessions
variable [CFloat F] {s s' : Interpreter F} {t v : Obj F} {names : Names F} {e : SExpr}
  {expr : Text} {fuel size r : Nat}

/-- A session whose calls define names and evaluate expressions that store nothing else. -/
inductive Dialogue : Interpreter F → Prop where
  | init : Dialogue interpreterInit
  | call {s s' : Interpreter F} {e : SExpr} {v : Obj F} {names : Names F} {expr : Text}
      {fuel size r : Nat} (hs : Dialogue s)
      (hp : parseExpression expr fuel 0 = .ok ((e.toObj : Obj F), size))
      (hx : command fuel (lookupName s) e.toObj = .ok (v, names))
      (hr : exec (evalExpression fuel expr) s = (.ok r, s')) : Dialogue s'

theorem Dialogue.session (hs : Dialogue s) : Session s := by
  induction hs with
  | init => exact .init
  | call _ _ _ hr ih => exact .call ih hr

/-- A call of `interpret_expression` does what `command` says. -/
theorem Session.command (hs : Session s) (hp : parseExpression expr fuel 0 = .ok (t, size))
    (hnull : t.isNull = false) (hx : Lisp.command fuel (lookupName s) t = .ok (v, names)) :
    ∃ r u, exec (evalExpression fuel expr) s = (.ok r, collectGarbage u) ∧ treeOf u.heap r = v ∧
      (r = 0 ↔ v.isNull = true) ∧ lookupName (collectGarbage u) = names := by
  obtain ⟨c, hc⟩ := hs.between
  obtain ⟨d, hd, hfind⟩ := hc.loaded_scope ((parsed_ok fuel).1 _ _ hp)
  have hnames : lookupName (loaded s t) = lookupName s := by
    funext n
    rw [← hd.state, lookupName_eq, hfind]
  rw [← hnames] at hx
  obtain ⟨r, g, us, hrun, -, hread, hlookup⟩ := hd.command loaded_reads hx
  refine ⟨r, g.state, exec_evalExpression hp hnull hrun, hread.treeOf, hread.isNull, ?_⟩
  rw [← hlookup]
  exact funext fun n => g.lookupName_collected n

omit [CFloat F] in
theorem initialNames_whole : (initialNames : Names F).Whole := by
  intro n v hv
  obtain ⟨p, -, rfl⟩ := Option.map_eq_some_iff.1 hv
  exact .primitive p.2

theorem Dialogue.whole (hs : Dialogue s) : Names.Whole (lookupName s) := by
  induction hs with
  | init =>
    rw [show lookupName interpreterInit = initialNames from funext lookupName_init]
    exact initialNames_whole
  | @call s s' e v names expr fuel size r hs hp hx hr ih =>
    obtain ⟨r', u, hcall, -, -, hnames⟩ := hs.session.command hp e.spelled.1 hx
    obtain rfl : collectGarbage u = s' := (Prod.mk.inj (hcall.symm.trans hr)).2
    have hcommand : Appends (Logged.command fuel (lookupName s) e.toObj) _ _ :=
      appends_command ih e.spelled.1 e.spelled.2
    obtain ⟨l, -, hl⟩ := hcommand []
    rw [hnames]
    exact (hl _ hx).2

/-- No evaluation fails silently: a call that returns `NULL` has written a message. -/
theorem evalExpression_reports {messages : List Output} (hs : Dialogue s)
    (hp : parseExpression expr fuel 0 = .ok ((e.toObj : Obj F), size))
    (h : exec (Logged.command fuel (lookupName s) e.toObj) [] = (.ok (v, names), messages)) :
    ∃ r u, exec (evalExpression fuel expr) s = (.ok r, collectGarbage u) ∧ treeOf u.heap r = v ∧
      lookupName (collectGarbage u) = names ∧ (r = 0 → messages ≠ []) := by
  have hcommand : Appends (Logged.command fuel (lookupName s) e.toObj) _ _ :=
    appends_command hs.whole e.spelled.1 e.spelled.2
  obtain ⟨hx, hreports, -⟩ := hcommand.exec_nil h
  obtain ⟨r, u, hcall, hvalue, hzero, hnames⟩ := hs.session.command hp e.spelled.1 hx
  exact ⟨r, u, hcall, hvalue, hnames, fun h0 => hreports.2 (hzero.1 h0)⟩

theorem evalExpression_reports_car : ∃ r u messages,
    exec (evalExpression 20 "(car x)".toList) (interpreterInit : Interpreter NoFloat) =
      (.ok r, collectGarbage u) ∧ treeOf u.heap r = .null ∧ (r = 0 → messages ≠ []) ∧
    messages = [logError "eval" "Variable: \"x\" not found in environment".toList,
      logError "car" "Error evaluating argument".toList] := by
  let e : SExpr := .paren [.token "car".toList, .token "x".toList]
  have hp : parseExpression "(car x)".toList 20 0 = .ok ((e.toObj : Obj NoFloat), 7) := by
    decide +kernel
  have hnames : lookupName (interpreterInit : Interpreter NoFloat) = initialNames :=
    funext lookupName_init
  have hmessages : (exec (Logged.command 20 initialNames (e.toObj : Obj NoFloat)) []).2 =
      [logError "eval" "Variable: \"x\" not found in environment".toList,
        logError "car" "Error evaluating argument".toList] := by decide +kernel
  have hvalue : (exec (Logged.command 20 initialNames (e.toObj : Obj NoFloat)) []).1.map Prod.fst =
      .ok .null := by decide +kernel
  rcases hx : exec (Logged.command 20 initialNames (e.toObj : Obj NoFloat)) [] with
    ⟨_ | ⟨v, names⟩, messages⟩
  · rw [hx] at hvalue
    cases hvalue
  · rw [hx] at hvalue hmessages
    obtain rfl := Except.ok.inj hvalue
    obtain ⟨r, u, hcall, htree, -, hreports⟩ := evalExpression_reports .init hp (hnames ▸ hx)
    exact ⟨r, u, messages, hcall, htree, hreports, hmessages⟩

end sessions
end Lisp
