import Lisp.EvaluationRules

/-! Recursion without a name: the closures that the `Y` combinator makes, and what they return. -/
namespace Lisp
variable {F : Type} {ρ : Scope F} {op e b u v : Obj F} {x m : Text}
  {captured : List (Text × Obj F)}

namespace YCombinator

section source

/-- A list of the elements. -/
def listOf : List (Obj F) → Obj F
  | [] => .null
  | x :: xs => .list x (listOf xs)

/-- `(lambda (x) b)`. -/
def lambdaOf (x : Text) (b : Obj F) : Obj F :=
  listOf [.atom "lambda".toList, listOf [.atom x], b]

/-- `(f f)`. -/
def selfApplication : Obj F := listOf [.atom ['f'], .atom ['f']]

/-- `((f f) x)`. -/
def unrolled : Obj F := listOf [selfApplication, .atom ['x']]

/-- `(r (lambda (x) ((f f) x)))`. -/
def generator : Obj F := listOf [.atom ['r'], lambdaOf ['x'] unrolled]

/-- `((lambda (f) (f f)) (lambda (f) (r (lambda (x) ((f f) x)))))`. -/
def fixedPoint : Obj F := listOf [lambdaOf ['f'] selfApplication, lambdaOf ['f'] generator]

/-- The value that the program gives `Y`. -/
def yExpression : Obj F := lambdaOf ['r'] fixedPoint

/-- `(cond ((= n 0) 42) (t (g (- n 1))))`. -/
def countdown : Obj F :=
  listOf [.atom "cond".toList, listOf [listOf [.atom ['='], .atom ['n'], .int 0], .int 42],
    listOf [.atom ['t'], listOf [.atom ['g'], listOf [.atom ['-'], .atom ['n'], .int 1]]]]

/-- The value that the program gives `F`. -/
def fExpression : Obj F := lambdaOf ['g'] (lambdaOf ['n'] countdown)

/-- `((Y F) n)`. -/
def callExpression (n : Int) : Obj F := listOf [listOf [.atom ['Y'], .atom ['F']], .int n]

end source

section closures

/-- A closure with one parameter. -/
def closureOf (x : Text) (b : Obj F) (captured : List (Text × Obj F)) : Obj F :=
  .closure (listOf [.atom x]) b (Obj.ofBindings captured) 1

def yValue : Obj F := closureOf ['r'] fixedPoint [("lambda".toList, .primitive .lambda)]

def fValue : Obj F :=
  closureOf ['g'] (lambdaOf ['n'] countdown) [(['-'], .primitive .sub), (['='], .primitive .equal),
    ("cond".toList, .primitive .cond), ("lambda".toList, .primitive .lambda)]

/-- The closure that is applied to itself. -/
def generatorValue : Obj F :=
  closureOf ['f'] generator [("lambda".toList, .primitive .lambda), (['r'], fValue)]

/-- What `g` is bound to. -/
def unrolledValue : Obj F := closureOf ['x'] unrolled [(['f'], generatorValue)]

/-- The value of `(Y F)`. -/
def countdownValue : Obj F :=
  closureOf ['n'] countdown [(['-'], .primitive .sub), (['g'], unrolledValue),
    (['='], .primitive .equal), ("cond".toList, .primitive .cond)]

/-- The scope of the body of a closure with one parameter. -/
def enter (captured : List (Text × Obj F)) (x : Text) (u : Obj F) (ρ : Scope F) : Scope F :=
  (captured ++ [(x, u)]).map (fun b => (some b.1, b.2)) ++ ρ

theorem find_enter : (enter captured x u ρ).find m =
    (((captured ++ [(x, u)]).find? fun b => b.1 == m).map Prod.snd).or (ρ.find m) := by
  unfold enter
  generalize captured ++ [(x, u)] = binds
  induction binds with
  | nil => simp
  | cons b binds ih =>
    rw [List.map_cons, List.cons_append, Scope.find, List.find?_cons, List.find?_cons]
    cases hb : b.1 == m with
    | true => simp [show (some b.1 == some m) = true from hb]
    | false => simpa [show (some b.1 == some m) = false from hb, Scope.find] using ih

end closures

section rules
variable [CFloat F]

theorem hasValue_lambdaOf (hl : ρ.find "lambda".toList = some (.primitive .lambda))
    (hx : isTruthName x = false) (hb : b.isNull = false)
    (hc : Obj.capture [some x] ρ.find [] b = captured) :
    HasValue ρ (lambdaOf x b) (closureOf x b captured) := by
  have hvalue : Obj.lambda ρ.find (listOf [listOf [.atom x], b]) = closureOf x b captured := by
    have hnames : (listOf [.atom x] : Obj F).paramNames = some [some x] := by
      simp [listOf, Obj.paramNames, Obj.keyName, hx]
    have hlen : (listOf [listOf [.atom x], b] : Obj F).length = 2 := rfl
    have hith : (listOf [listOf [.atom x], b] : Obj F).ith 0 = listOf [.atom x] := rfl
    have hith' : (listOf [listOf [.atom x], b] : Obj F).ith 1 = b := rfl
    have hlist : (listOf [.atom x] : Obj F).isList = true := rfl
    simp only [Obj.lambda, hlen, hith, hith', hlist, hnames, hb, hc]
    rfl
  rw [← hvalue]
  exact (HasValue.name (by decide) hl).lambda rfl

theorem hasValue_call (hop : HasValue ρ op (closureOf x b captured)) (hx : isTruthName x = false)
    (he : HasValue ρ e u) (hbody : HasValue (enter captured x u ρ) b v) :
    HasValue ρ (listOf [op, e]) v := by
  have hnames : (listOf [.atom x] : Obj F).paramNames = some [some x] := by
    simp [listOf, Obj.paramNames, Obj.keyName, hx]
  refine hop.call hnames rfl (by cases op <;> rfl) trivial (.cons he .nil) ?_
  have henter : (Obj.ofBindings captured).bindings ++ [some x].zip [u] ++ ρ =
      enter captured x u ρ := by
    rw [ofBindings_eq, bindings_bindTree, enter, List.map_append]
    rfl
  rwa [henter]

end rules

section recursion
variable [CFloat F]

/-- The name `g` gets a closure that unrolls the recursion once more. -/
theorem hasValue_delayed (hl : ρ.find "lambda".toList = some (.primitive .lambda))
    (hf : ρ.find ['f'] = some generatorValue) :
    HasValue ρ (lambdaOf ['x'] unrolled) unrolledValue := by
  refine hasValue_lambdaOf hl (by decide) rfl ?_
  simp [unrolled, selfApplication, listOf, Obj.capture, hf]

theorem hasValue_generator (ht : ρ.find ['t'] = none)
    (hl : ρ.find "lambda".toList = some (.primitive .lambda)) (hr : ρ.find ['r'] = some fValue)
    (hf : ρ.find ['f'] = some generatorValue) : HasValue ρ generator countdownValue := by
  refine hasValue_call (.name (by decide) hr) (by decide) (hasValue_delayed hl hf) ?_
  refine hasValue_lambdaOf ?_ (by decide) rfl ?_
  · simp [find_enter]
  · simp [countdown, listOf, Obj.capture, find_enter, ht]

/-- `(f f)` is the next step of the recursion wherever `f` is the generator. -/
theorem hasValue_selfApplication (ht : ρ.find ['t'] = none)
    (hf : ρ.find ['f'] = some generatorValue) : HasValue ρ selfApplication countdownValue := by
  have hname : HasValue ρ (.atom ['f']) generatorValue := .name (by decide) hf
  refine hasValue_call hname (by decide) hname (hasValue_generator ?_ ?_ ?_ ?_)
  · simp [find_enter, ht]
  · simp [find_enter]
  · simp [find_enter]
  · simp [find_enter]

theorem hasValue_fixedPoint (ht : ρ.find ['t'] = none) (hx : ρ.find ['x'] = none)
    (hY : ρ.find ['Y'] = some yValue) (hF : ρ.find ['F'] = some fValue) :
    HasValue ρ (listOf [.atom ['Y'], .atom ['F']]) countdownValue := by
  refine hasValue_call (.name (by decide) hY) (by decide) (.name (by decide) hF) ?_
  have hself : HasValue (enter [("lambda".toList, .primitive .lambda)] ['r'] fValue ρ)
      (lambdaOf ['f'] selfApplication) (closureOf ['f'] selfApplication []) := by
    refine hasValue_lambdaOf ?_ (by decide) rfl ?_
    · simp [find_enter]
    · simp [selfApplication, listOf, Obj.capture]
  have hgenerator : HasValue (enter [("lambda".toList, .primitive .lambda)] ['r'] fValue ρ)
      (lambdaOf ['f'] generator) generatorValue := by
    refine hasValue_lambdaOf ?_ (by decide) rfl ?_
    · simp [find_enter]
    · simp [generator, lambdaOf, unrolled, selfApplication, listOf, Obj.capture, find_enter, hx]
  refine hasValue_call hself (by decide) hgenerator (hasValue_selfApplication ?_ ?_)
  · simp [find_enter, ht]
  · simp [find_enter]

section clauses
variable {a : Int} (hequal : ρ.find ['='] = some (.primitive .equal))
  (hn : ρ.find ['n'] = some (.int a))
include hequal hn

theorem hasValue_isZero :
    HasValue ρ (listOf [.atom ['='], .atom ['n'], .int 0]) (.ofBool (a == 0)) :=
  .equal (.name (by decide) hequal) (.name (by decide) hn) (.int 0)

theorem hasValue_stops (hcond : ρ.find "cond".toList = some (.primitive .cond)) (ha : a = 0) :
    HasValue ρ countdown (.int 42) := by
  have hzero : HasValue ρ _ (.ofBool (a == 0)) := hasValue_isZero hequal hn
  rw [beq_iff_eq.2 ha] at hzero
  exact .cond (.name (by decide) hcond) rfl (.holds hzero rfl rfl (.int 42) rfl)

theorem hasValue_continues (hcond : ρ.find "cond".toList = some (.primitive .cond)) (ha : a ≠ 0)
    (h : HasValue ρ (listOf [.atom ['g'], listOf [.atom ['-'], .atom ['n'], .int 1]]) v) :
    HasValue ρ countdown v := by
  have hzero : HasValue ρ _ (.ofBool (a == 0)) := hasValue_isZero hequal hn
  rw [beq_eq_false_iff_ne.2 ha] at hzero
  exact .cond (.name (by decide) hcond) rfl
    (.next hzero (.holds (.truth (by decide)) rfl rfl h rfl))

end clauses

/-- The number that the recursion goes on with. -/
theorem hasValue_predecessor {a : Int} (hsub : ρ.find ['-'] = some (.primitive .sub))
    (hn : ρ.find ['n'] = some (.int (a + 1))) (hrange : InInt a) :
    HasValue ρ (listOf [.atom ['-'], .atom ['n'], .int 1]) (.int a) := by
  have h := HasValue.sub (.name (by decide) hsub) (.name (by decide) hn) (.int 1)
    (by rwa [add_sub_cancel_right])
  rwa [add_sub_cancel_right] at h

theorem hasValue_unroll (hg : ρ.find ['g'] = some unrolledValue) (he : HasValue ρ e u)
    (h : HasValue (enter [(['f'], generatorValue)] ['x'] u ρ) unrolled v) :
    HasValue ρ (listOf [.atom ['g'], e]) v :=
  hasValue_call (.name (by decide) hg) (by decide) he h

/-- The induction is over the number, for every scope at once: each step of the recursion is taken
in the scope of the call before it. -/
theorem hasValue_countdown (k : Nat) (hk : k < 2 ^ 31) (ht : ρ.find ['t'] = none)
    (hop : HasValue ρ op countdownValue) (he : HasValue ρ e (.int k)) :
    HasValue ρ (listOf [op, e]) (.int 42) := by
  induction k generalizing ρ op e with
  | zero =>
    refine hasValue_call hop (by decide) he (hasValue_stops ?_ ?_ ?_ rfl)
    · simp [find_enter]
    · simp [find_enter]
    · simp [find_enter]
  | succ k ih =>
    refine hasValue_call hop (by decide) he
      (hasValue_continues (a := (k : Int) + 1) ?_ ?_ ?_ (by omega) ?_)
    · simp [find_enter]
    · simp [find_enter]
    · simp [find_enter]
    · -- `g` is the unrolled recursion, so the body is the call `((f f) x)` of the smaller number
      refine hasValue_unroll (u := .int k) ?_ (hasValue_predecessor ?_ ?_ ?_) ?_
      · simp [find_enter]
      · simp [find_enter]
      · simp [find_enter]
      · constructor <;> omega
      · refine ih (by omega) ?_ (hasValue_selfApplication ?_ ?_) (.name (by decide) ?_)
        · simp [find_enter, ht]
        · simp [find_enter, ht]
        · simp [find_enter]
        · simp [find_enter]

end recursion

section definitions
variable [CFloat F]

theorem hasValue_yExpression (hl : ρ.find "lambda".toList = some (.primitive .lambda))
    (hf : ρ.find ['f'] = none) (hx : ρ.find ['x'] = none) : HasValue ρ yExpression yValue := by
  refine hasValue_lambdaOf hl (by decide) rfl ?_
  change ρ.find ['l', 'a', 'm', 'b', 'd', 'a'] = _ at hl
  simp [fixedPoint, generator, unrolled, selfApplication, lambdaOf, listOf, Obj.capture, hl, hf, hx]

theorem hasValue_fExpression (ht : ρ.find ['t'] = none) (hn : ρ.find ['n'] = none)
    (hl : ρ.find "lambda".toList = some (.primitive .lambda))
    (hcond : ρ.find "cond".toList = some (.primitive .cond))
    (hequal : ρ.find ['='] = some (.primitive .equal))
    (hsub : ρ.find ['-'] = some (.primitive .sub)) : HasValue ρ fExpression fValue := by
  refine hasValue_lambdaOf hl (by decide) rfl ?_
  change ρ.find ['l', 'a', 'm', 'b', 'd', 'a'] = _ at hl
  change ρ.find ['c', 'o', 'n', 'd'] = _ at hcond
  simp [countdown, lambdaOf, listOf, Obj.capture, hl, hn, ht, hcond, hequal, hsub]

end definitions

end YCombinator
end Lisp
