import Lisp.Evaluator

/-! Which evaluations survive a `NULL` result: the counters of the trace through every
primitive, `apply` and `eval`. -/
namespace Lisp
open ExceptState
variable {F α : Type} {s s' u : Interpreter F} {r o args fuel : Nat}
  {ev : Nat → Eval F Nat}

/-- Every unchecked `NULL` is the result of a failed evaluation. -/
def Counted (s u : Interpreter F) : Prop :=
  s.trace.unchecked ≤ u.trace.unchecked ∧
    u.trace.unchecked + s.trace.failures ≤ u.trace.failures + s.trace.unchecked

/-- A failed evaluation between the two states left an unchecked `NULL`. -/
def Survived (s u : Interpreter F) : Prop :=
  Counted s u ∧
    (u.trace.unchecked = s.trace.unchecked → u.trace.failures = s.trace.failures)

/-- The relation of the states before and after a computation with result `r`. -/
def Propagates (s : Interpreter F) (r : Nat) (u : Interpreter F) : Prop :=
  Counted s u ∧ (r ≠ 0 → Survived s u)

/-- The same, for an evaluation that `eval` has counted. -/
def CountsResult (s : Interpreter F) (r : Nat) (u : Interpreter F) : Prop :=
  Propagates s r u ∧
    (r = 0 → u.trace.unchecked + s.trace.failures + 1 ≤ u.trace.failures + s.trace.unchecked)

/-- `x` returns `NULL` if an evaluation it checks does. -/
def Checks (x : Eval F Nat) : Prop :=
  ∀ s s' : Interpreter F, Survived s s' → wp x (Propagates s) (fun _ _ => True) s'

/-- `x` returns `NULL`. -/
def Fails (x : Eval F Nat) : Prop :=
  ∀ s s' : Interpreter F, Counted s s' → wp x (Propagates s) (fun _ _ => True) s'

/-- `x` evaluates nothing. -/
def Quiet (x : Eval F α) : Prop :=
  ∀ s : Interpreter F,
    wp x (fun _ u => u.trace.unchecked = s.trace.unchecked ∧
      u.trace.failures = s.trace.failures) (fun _ _ => True) s

/-- `x` checks no result, and the trace counts each `NULL` it takes. -/
def Survives (x : Eval F α) : Prop :=
  ∀ s s' : Interpreter F, Survived s s' → wp x (fun _ u => Survived s u) (fun _ _ => True) s'

def CountsAll (ev : Nat → Eval F Nat) : Prop :=
  ∀ (o : Nat) (s : Interpreter F), wp (ev o) (CountsResult s) (fun _ _ => True) s

theorem survived_refl (s : Interpreter F) : Survived s s :=
  ⟨⟨Nat.le_refl _, Nat.le_of_eq (Nat.add_comm _ _)⟩, fun _ => rfl⟩

theorem Survived.quiet (h : Survived s s') (hu : u.trace.unchecked = s'.trace.unchecked)
    (hf : u.trace.failures = s'.trace.failures) : Survived s u := by
  simpa only [Survived, Counted, hu, hf] using h

theorem fails_zero : Fails (pure 0 : Eval F Nat) :=
  fun _ _ h => ⟨h, fun hr => absurd rfl hr⟩

theorem fails_get {f : Interpreter F → Eval F Nat} (h : ∀ s, Fails (f s)) :
    Fails (get >>= f) :=
  fun s s' hs => h s' s s' hs

theorem checks_pure (r : Nat) : Checks (pure r : Eval F Nat) :=
  fun _ _ h => ⟨h.1, fun _ => h⟩

theorem checks_zero : Checks (pure 0 : Eval F Nat) := checks_pure 0

theorem checks_throw (e : Halt) : Checks (throw e : Eval F Nat) :=
  fun _ _ _ => trivial

theorem checks_get {f : Interpreter F → Eval F Nat} (h : ∀ s, Checks (f s)) :
    Checks (get >>= f) :=
  fun s s' hs => h s' s s' hs

theorem checks_ite {c : Prop} [Decidable c] {x y : Eval F Nat} (hx : c → Checks x)
    (hy : ¬c → Checks y) : Checks (if c then x else y) := by
  intro s s' hs
  exact wp_ite (fun hc => hx hc s s' hs) (fun hc => hy hc s s' hs)

theorem checks_quiet {x : Eval F α} {f : α → Eval F Nat} (hx : Quiet x)
    (hf : ∀ a, Checks (f a)) : Checks (x >>= f) := by
  intro s s' hs
  refine wp_seq (hx s') ?_ (fun _ _ h => h)
  rintro a u ⟨hu, hfail⟩
  exact hf a s u (hs.quiet hu hfail)

theorem quiet_pure (a : α) : Quiet (pure a : Eval F α) := fun _ => ⟨rfl, rfl⟩

theorem quiet_modify (g : Interpreter F → Interpreter F)
    (hg : ∀ s, (g s).trace.unchecked = s.trace.unchecked ∧
      (g s).trace.failures = s.trace.failures) : Quiet (modify g : Eval F PUnit) :=
  fun s => hg s

theorem quiet_onHeap (f : Heap F → α × Heap F) : Quiet (onHeap f) :=
  fun _ => ⟨rfl, rfl⟩

theorem quiet_gcAdd (o : Nat) : Quiet (gcAdd o : Eval F Unit) := fun _ => ⟨rfl, rfl⟩

theorem quiet_gcAddRecursive (o : Nat) : Quiet (gcAddRecursive o : Eval F Unit) :=
  fun _ => ⟨rfl, rfl⟩

theorem quiet_allocate (c : Cell F) : Quiet (allocate c) := fun _ => ⟨rfl, rfl⟩

theorem quiet_orUndefined (a : Option α) : Quiet (orUndefined a : Eval F α) := by
  cases a with
  | none => exact fun _ => trivial
  | some a => exact fun _ => ⟨rfl, rfl⟩

theorem checks_quiet_result {x : Eval F Nat} (hx : Quiet x) : Checks x := by
  intro s s' hs
  refine wp_mono (hx s') ?_ (fun _ _ h => h)
  rintro a u ⟨hu, hf⟩
  exact checks_pure a s u (hs.quiet hu hf)

theorem quiet_ofBool (b : Bool) : Quiet (ofBool b : Eval F Nat) := by
  cases b <;> exact fun _ => ⟨rfl, rfl⟩

theorem counts_holding {os : List Nat} {x : Eval F Nat}
    (h : ∀ s : Interpreter F, wp x (CountsResult s) (fun _ _ => True) s) (s : Interpreter F) :
    wp (holding os x) (CountsResult s) (fun _ _ => True) s := by
  unfold holding
  rw [wp_modify_bind]
  exact wp_seq (h _) (fun _ _ hr => hr) (fun _ _ _ => trivial)

/-- An evaluation whose `NULL` result makes the rest return `NULL`. -/
theorem checks_checked {x : Eval F Nat} {f : Nat → Eval F Nat}
    (hx : ∀ s : Interpreter F, wp x (CountsResult s) (fun _ _ => True) s)
    (h0 : Fails (f 0)) (hf : ∀ r, r ≠ 0 → Checks (f r)) : Checks (x >>= f) := by
  intro s s' hs
  refine wp_seq (hx s') ?_ (fun _ _ h => h)
  rintro r u ⟨⟨hc, hp⟩, -⟩
  have hcount : Counted s u := by
    obtain ⟨⟨h1, h2⟩, -⟩ := hs
    obtain ⟨h3, h4⟩ := hc
    exact ⟨by omega, by omega⟩
  by_cases hr : r = 0
  · subst hr
    exact h0 s u hcount
  · refine hf r hr s u ⟨hcount, fun hu => ?_⟩
    obtain ⟨⟨h1, -⟩, h3⟩ := hs
    obtain ⟨⟨h4, -⟩, h5⟩ := hp hr
    rw [h5 (by omega), h3 (by omega)]

theorem survives_quiet {x : Eval F α} (hx : Quiet x) : Survives x := by
  intro s s' hs
  refine wp_mono (hx s') ?_ (fun _ _ h => h)
  rintro a u ⟨hu, hf⟩
  exact hs.quiet hu hf

theorem survives_bind {x : Eval F α} {f : α → Eval F Nat} (hx : Survives x)
    (hf : ∀ a, Survives (f a)) : Survives (x >>= f) := by
  intro s s' hs
  exact wp_seq (hx s s' hs) (fun a u h => hf a s u h) (fun _ _ h => h)

theorem survives_get {f : Interpreter F → Eval F α} (h : ∀ s, Survives (f s)) :
    Survives (get >>= f) :=
  fun s s' hs => h s' s s' hs

theorem survives_holding {os : List Nat} {x : Eval F Nat} (h : Survives x) :
    Survives (holding os x) := by
  refine survives_bind (survives_quiet (quiet_modify _ fun _ => ⟨rfl, rfl⟩)) fun _ => ?_
  refine survives_bind h fun _ => ?_
  exact survives_bind (survives_quiet (quiet_modify _ fun _ => ⟨rfl, rfl⟩))
    fun _ => survives_quiet (quiet_pure _)

theorem checks_survives {x : Eval F α} {f : α → Eval F Nat} (hx : Survives x)
    (hf : ∀ a, Checks (f a)) : Checks (x >>= f) := by
  intro s s' hs
  exact wp_seq (hx s s' hs) (fun a u h => hf a s u h) (fun _ _ h => h)

/-- An evaluation whose result is not checked: the trace counts a `NULL` one. -/
theorem survives_unchecked {x : Eval F Nat}
    (hx : ∀ s : Interpreter F, wp x (CountsResult s) (fun _ _ => True) s) :
    Survives (notChecked x) := by
  intro s s' hs
  refine wp_seq (hx s') ?_ (fun _ _ h => h)
  rintro r u ⟨⟨⟨h1, h2⟩, hp⟩, hnull⟩
  obtain ⟨⟨h3, h4⟩, h5⟩ := hs
  change Survived s { u with trace.unchecked := u.trace.unchecked + if r = 0 then 1 else 0 }
  by_cases hr : r = 0
  · have hcount := hnull hr
    simp only [Survived, Counted, if_pos hr]
    exact ⟨⟨by omega, by omega⟩, fun hu => by omega⟩
  · obtain ⟨-, h6⟩ := hp hr
    simp only [Survived, Counted, if_neg hr]
    exact ⟨⟨by omega, by omega⟩, fun hu => by omega⟩

theorem checks_evaluation (hev : CountsAll ev) : Checks (ev o) := by
  have h := checks_checked (f := pure) (hev o) fails_zero fun r _ => checks_pure r
  rwa [bind_pure] at h

section calls
variable (hev : CountsAll ev)
include hev

theorem checks_atom : Checks (Primitives.atom ev args) := by
  unfold Primitives.atom
  refine checks_get fun s => checks_ite (fun _ => checks_zero) fun _ => ?_
  refine checks_survives (survives_unchecked (hev _)) fun result => checks_get fun u => ?_
  exact checks_quiet_result (quiet_ofBool _)

theorem checks_car : Checks (Primitives.car ev args) := by
  unfold Primitives.car
  refine checks_get fun s => checks_ite (fun _ => checks_zero) fun _ => ?_
  refine checks_checked (hev _) (fails_get fun _ => fails_zero) fun v hv => ?_
  refine checks_get fun u => ?_
  rw [if_neg hv]
  refine checks_ite (fun _ => checks_zero) fun _ => checks_ite (fun _ => ?_) fun _ => checks_pure _
  exact checks_quiet_result (quiet_allocate _)

theorem checks_cdr : Checks (Primitives.cdr ev args) := by
  unfold Primitives.cdr
  refine checks_get fun s => checks_ite (fun _ => checks_zero) fun _ => ?_
  refine checks_checked (hev _) (fails_get fun _ => fails_zero) fun v hv => ?_
  refine checks_get fun u => ?_
  rw [if_neg hv]
  have hnil : Checks (nil : Eval F Nat) := checks_quiet_result (quiet_allocate _)
  refine checks_ite (fun _ => checks_zero) fun _ => checks_ite (fun _ => hnil) fun _ => ?_
  exact checks_ite (fun _ => hnil) fun _ => checks_pure _

theorem checks_cons : Checks (Primitives.cons ev args) := by
  unfold Primitives.cons
  refine checks_get fun s => checks_ite (fun _ => checks_zero) fun _ => ?_
  refine checks_ite (fun _ => checks_zero) fun _ => ?_
  refine checks_checked (counts_holding (hev _)) fails_zero fun car hcar => ?_
  rw [if_neg hcar]
  refine checks_checked (counts_holding (hev _)) fails_zero fun cdr hcdr => ?_
  rw [if_neg hcdr]
  refine checks_get fun u => checks_ite (fun _ => checks_zero) fun _ => ?_
  exact checks_quiet_result (quiet_allocate _)

theorem checks_cond : Checks (Primitives.cond ev fuel args) := by
  induction fuel generalizing args with
  | zero => exact checks_throw _
  | succ fuel ih =>
    unfold Primitives.cond
    refine checks_get fun s => checks_ite (fun _ => ?_) fun _ => ?_
    · exact checks_quiet_result (quiet_allocate _)
    refine checks_ite (fun _ => checks_zero) fun _ => checks_ite (fun _ => checks_zero) fun _ => ?_
    refine checks_ite (fun _ => checks_zero) fun _ => checks_ite (fun _ => checks_zero) fun _ => ?_
    refine checks_survives (survives_unchecked (counts_holding (hev _))) fun predicate =>
      checks_get fun u => ?_
    refine checks_ite (fun _ => checks_zero) fun _ => checks_ite (fun _ => ?_) fun _ => ih
    exact checks_ite (fun _ => checks_zero) fun _ => checks_evaluation hev

theorem survives_associate {names : Nat} : Survives (associate ev fuel names args) := by
  induction fuel generalizing names args with
  | zero => exact fun _ _ _ => trivial
  | succ fuel ih =>
    unfold associate
    refine survives_get fun s => ?_
    split
    · exact survives_quiet (quiet_pure _)
    refine survives_bind (survives_unchecked (counts_holding (hev _))) fun value => ?_
    refine survives_bind (survives_quiet (quiet_onHeap _)) fun pair => ?_
    refine survives_bind (survives_quiet (quiet_gcAdd _)) fun _ => survives_get fun u => ?_
    refine survives_bind (survives_quiet (quiet_gcAdd _)) fun _ => ?_
    exact survives_bind (survives_holding ih) fun _ => survives_quiet (quiet_allocate _)

theorem checks_partialApplication {closure : Nat} :
    Checks (closurePartialApplication ev fuel closure args) := by
  unfold closurePartialApplication
  refine checks_get fun s => checks_ite (fun _ => checks_zero) fun _ => ?_
  refine checks_quiet (quiet_onHeap _) fun params =>
    checks_quiet (quiet_gcAddRecursive _) fun _ => ?_
  refine checks_quiet (quiet_onHeap _) fun body => checks_quiet (quiet_gcAddRecursive _) fun _ => ?_
  refine checks_quiet (quiet_onHeap _) fun capt => checks_quiet (quiet_gcAddRecursive _) fun _ => ?_
  refine checks_get fun u => ?_
  refine checks_survives (survives_holding (survives_associate hev)) fun newBindings => ?_
  refine checks_quiet (quiet_onHeap _) fun captured => checks_quiet (quiet_onHeap _) fun c => ?_
  exact checks_quiet (quiet_gcAdd _) fun _ => checks_pure _

theorem checks_inEnvironment {env : Nat} : Checks (inEnvironment env (ev o)) := by
  unfold inEnvironment
  refine checks_get fun old => checks_quiet (quiet_modify _ fun _ => ⟨rfl, rfl⟩) fun _ => ?_
  intro s s' hs
  refine wp_seq (checks_evaluation hev s s' hs) ?_ (fun _ _ h => h)
  exact fun r u hu => hu

theorem checks_applyBody {oper : Nat} : Checks (applyBody ev fuel oper args) := by
  unfold applyBody bind
  refine checks_get fun s => ?_
  refine checks_survives (survives_holding ?_) fun tmpEnv => ?_
  · refine survives_bind (survives_associate hev) fun frame => survives_get fun u => ?_
    exact survives_quiet (quiet_onHeap _)
  refine checks_quiet (quiet_onHeap _) fun capt => checks_quiet (quiet_gcAddRecursive _) fun _ => ?_
  exact checks_quiet (quiet_onHeap _) fun env => checks_get fun u => checks_inEnvironment hev

end calls

section primitives
variable [CFloat F] (hev : CountsAll ev)
include hev

theorem checks_eq : Checks (Primitives.eq ev args) := by
  unfold Primitives.eq
  refine checks_get fun s => checks_ite (fun _ => checks_zero) fun _ => ?_
  refine checks_checked (counts_holding (hev _)) fails_zero fun first hfirst => ?_
  rw [if_neg hfirst]
  refine checks_get fun u => checks_checked (counts_holding (hev _)) fails_zero
    fun second hsecond => ?_
  rw [if_neg hsecond]
  exact checks_get fun _ => checks_quiet_result (quiet_ofBool _)

theorem checks_set : Checks (Primitives.set ev args) := by
  unfold Primitives.set
  refine checks_get fun s => checks_ite (fun _ => checks_zero) fun _ => ?_
  refine checks_checked (counts_holding (hev _)) ?_ fun varName _ => ?_
  · exact fails_get fun s => by
      simpa [isNil, isT, isList, isAtom, cellAt, objectAt] using fails_zero
  refine checks_get fun s => checks_ite (fun _ => checks_zero) fun _ => ?_
  refine checks_ite (fun _ => checks_zero) fun _ => checks_ite (fun _ => checks_zero) fun _ => ?_
  refine checks_checked (counts_holding (hev _)) fails_zero fun value hvalue => ?_
  rw [if_neg hvalue]
  unfold Primitives.store
  refine checks_quiet (quiet_onHeap _) fun resultCpy =>
    checks_ite (fun _ => checks_zero) fun _ => ?_
  refine checks_get fun s => checks_ite (fun _ => ?_) fun _ => ?_
  · exact checks_quiet (fun _ => ⟨rfl, rfl⟩) fun _ => checks_pure _
  · exact checks_quiet (fun _ => ⟨rfl, rfl⟩) fun _ => checks_pure _

omit hev in
theorem checks_lambda : Checks (Primitives.lambda args : Eval F Nat) := by
  unfold Primitives.lambda
  refine checks_get fun s => checks_ite (fun _ => checks_zero) fun _ => ?_
  refine checks_ite (fun _ => checks_zero) fun _ => checks_ite (fun _ => checks_zero) fun _ => ?_
  refine checks_ite (fun _ => checks_zero) fun _ => ?_
  refine checks_quiet (quiet_onHeap _) fun params => checks_quiet (quiet_onHeap _) fun body => ?_
  refine checks_ite (fun _ => ?_) fun _ => checks_get fun s => ?_
  · exact checks_quiet (quiet_modify _ fun _ => ⟨rfl, rfl⟩) fun _ => checks_zero
  refine checks_quiet (quiet_orUndefined _) fun capture => ?_
  refine checks_quiet (quiet_modify _ fun _ => ⟨rfl, rfl⟩) fun _ => ?_
  refine checks_quiet (quiet_onHeap _) fun o => ?_
  exact checks_quiet (quiet_gcAddRecursive _) fun _ => checks_pure _

theorem checks_applyArithmetic {intOp : Int → Int → Option Int} {floatOp : F → F → Eval F F}
    (hop : ∀ x y, Quiet (floatOp x y)) :
    Checks (Primitives.applyArithmetic ev args intOp floatOp) := by
  unfold Primitives.applyArithmetic
  refine checks_get fun s => checks_ite (fun _ => checks_zero) fun _ => ?_
  refine checks_checked (counts_holding (hev _)) (fails_get fun _ => fails_zero) fun first h1 => ?_
  refine checks_get fun s => ?_
  rw [if_neg h1]
  refine checks_ite (fun _ => checks_zero) fun _ => ?_
  refine checks_checked (counts_holding (hev _)) (fails_get fun _ => fails_zero) fun second h2 => ?_
  refine checks_get fun s => ?_
  rw [if_neg h2]
  refine checks_ite (fun _ => checks_zero) fun _ => checks_ite (fun _ => ?_) fun _ => ?_
  · exact checks_quiet (hop _ _) fun _ => checks_quiet_result (quiet_allocate _)
  · exact checks_quiet (quiet_orUndefined _) fun _ => checks_quiet_result (quiet_allocate _)

theorem checks_compareNumbers {intOp : Int → Int → Bool} {floatOp : F → F → Bool} :
    Checks (Primitives.compareNumbers ev args intOp floatOp) := by
  unfold Primitives.compareNumbers
  refine checks_get fun s => checks_ite (fun _ => checks_zero) fun _ => ?_
  refine checks_checked (counts_holding (hev _)) (fails_get fun _ => fails_zero) fun first h1 => ?_
  refine checks_get fun s => ?_
  rw [if_neg h1]
  refine checks_ite (fun _ => checks_zero) fun _ => ?_
  refine checks_checked (counts_holding (hev _)) (fails_get fun _ => fails_zero) fun second h2 => ?_
  refine checks_get fun s => ?_
  rw [if_neg h2]
  exact checks_ite (fun _ => checks_zero) fun _ => checks_quiet_result (quiet_ofBool _)

omit hev in
theorem quiet_modFloats (x y : F) : Quiet (modFloats fuel x y) := by
  unfold modFloats
  generalize absFloat x = x
  generalize absFloat y = y
  induction fuel generalizing x with
  | zero => exact fun _ => trivial
  | succ fuel ih =>
    unfold modFloatsFrom
    split
    · exact ih _
    · exact fun _ => ⟨rfl, rfl⟩

theorem checks_primitive (f : Primitive) : Checks (f.run ev fuel args) := by
  cases f with
  | quote =>
    refine checks_get fun s => checks_ite (fun _ => checks_zero) fun _ => checks_pure _
  | atom => exact checks_atom hev
  | eq => exact checks_eq hev
  | car => exact checks_car hev
  | cdr => exact checks_cdr hev
  | cons => exact checks_cons hev
  | cond => exact checks_cond hev
  | set => exact checks_set hev
  | env =>
    refine checks_get fun s => checks_ite (fun _ => checks_zero) fun _ => checks_pure _
  | lambda => exact checks_lambda
  | defmacro => exact checks_zero
  | mod =>
    rw [Primitive.run, Primitives.mod]
    exact checks_applyArithmetic hev quiet_modFloats
  | add | sub | mul | divide =>
    simp only [Primitive.run, Primitives.add, Primitives.sub, Primitives.mul, Primitives.divide]
    exact checks_applyArithmetic hev fun x y => quiet_pure _
  | equal | gt | gte | lt | lte =>
    simp only [Primitive.run, Primitives.equal, Primitives.gt, Primitives.gte, Primitives.lt,
      Primitives.lte]
    exact checks_compareNumbers hev

theorem checks_apply {oper : Nat} : Checks (apply ev fuel oper args) := by
  unfold apply
  refine checks_get fun s => ?_
  split
  · exact checks_primitive hev _
  · refine checks_ite (fun _ => checks_zero) fun _ => checks_ite (fun _ => ?_) fun _ => ?_
    · exact checks_partialApplication hev
    · exact checks_applyBody hev
  · exact checks_zero

theorem checks_evalStep : Checks (evalStep ev fuel o) := by
  unfold evalStep
  refine checks_get fun s => checks_ite (fun _ => checks_pure _) fun _ => ?_
  refine checks_ite (fun _ => checks_pure _) fun _ => checks_ite (fun _ => checks_zero) fun _ => ?_
  refine checks_ite (fun _ => checks_pure _) fun _ => ?_
  refine checks_checked (counts_holding (hev _)) ?_ fun oper _ =>
    checks_get fun _ => checks_apply hev
  -- an operator that fails is not applied
  exact fails_get fun _ => fails_get fun _ => fails_zero

end primitives

section eval
variable [CFloat F]

theorem countsAll_eval (fuel : Nat) : CountsAll (eval fuel : Nat → Eval F Nat) := by
  induction fuel with
  | zero => exact fun _ _ => trivial
  | succ fuel ih =>
    intro o s
    unfold eval
    refine wp_seq (checks_evalStep ih s s (survived_refl s)) ?_ (fun _ _ h => h)
    rintro r u ⟨⟨h1, h2⟩, h3⟩
    change CountsResult s r { u with trace.failures := u.trace.failures + if r = 0 then 1 else 0 }
    by_cases hr : r = 0
    · simp only [CountsResult, Propagates, Counted, hr, if_true]
      exact ⟨⟨⟨h1, by omega⟩, fun h => absurd rfl h⟩, fun _ => by omega⟩
    · simp only [CountsResult, Propagates, Counted, Survived, if_neg hr, Nat.add_zero]
      exact ⟨⟨⟨h1, h2⟩, fun _ => h3 hr⟩, fun h => absurd h hr⟩

/-- An evaluation that returns an object had a failed evaluation inside it exactly when the
operand of `atom`, the predicate of a clause of `cond` or the argument of a closure was
`NULL`: these three are not checked. -/
theorem eval_survives_iff {fuel : Nat} {o r : Nat} {s u : Interpreter F}
    (h : exec (eval fuel o) s = (.ok r, u)) (hr : r ≠ 0) :
    u.trace.failures = s.trace.failures ↔ u.trace.unchecked = s.trace.unchecked := by
  obtain ⟨⟨hcount, hsurvived⟩, -⟩ := (countsAll_eval fuel o s).of_ok h
  constructor
  · intro hf
    obtain ⟨h1, h2⟩ := hcount
    omega
  · exact (hsurvived hr).2

/-- The initial interpreter once `(atom undefined)` is in memory, and where it is. -/
def atomUndefined : Nat × Interpreter NoFloat :=
  let loaded := load (interpreterInit (F := NoFloat)).heap
    (.list (.atom "atom".toList) (.list (.atom "undefined".toList) .null))
  (loaded.1, { interpreterInit with heap := loaded.2 })

/-- The result is a new object behind the loaded expression. -/
theorem eval_survives_iff_atom :
    (exec (eval 3 atomUndefined.1) atomUndefined.2).2.trace.failures =
        atomUndefined.2.trace.failures ↔
      (exec (eval 3 atomUndefined.1) atomUndefined.2).2.trace.unchecked =
        atomUndefined.2.trace.unchecked := by
  have hresult : (exec (eval 3 atomUndefined.1) atomUndefined.2).1 = .ok 110 := by decide +kernel
  exact eval_survives_iff (exec_eq hresult) (by decide)

/-- The operand of `(atom undefined)` fails and the application returns the empty list. -/
theorem evalExpression_atom_undefined :
    let run := exec (evalExpression 10 "(atom undefined)".toList) (interpreterInit (F := NoFloat))
    run.1.map (isNil run.2.heap) = .ok true ∧ run.2.trace.failures = 1 := by
  decide +kernel

end eval
end Lisp
