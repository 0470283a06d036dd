import Lisp.Evaluator

/-! Evaluation does not read the trace, and more fuel changes nothing about an evaluation that
returns. -/
namespace Lisp
open ExceptState
variable {F α β : Type} {ev ev' : Nat → Eval F Nat} {args fuel fuel' : Nat}

/-- The two states differ in their traces only. -/
structure SameMemory (s s' : Interpreter F) : Prop where
  heap : s'.heap = s.heap
  env : s'.env = s.env
  allocated : s'.allocated = s.allocated

/-- If `x` returns, then `y` returns the same. -/
def Simulates (x y : Eval F α) : Prop :=
  ∀ s s' a t, SameMemory s s' → exec x s = (.ok a, t) →
    ∃ t', exec y s' = (.ok a, t') ∧ SameMemory t t'

def SimulatesAll (ev ev' : Nat → Eval F Nat) : Prop := ∀ o, Simulates (ev o) (ev' o)

namespace Simulates

theorem pure (a : α) : Simulates (pure a : Eval F α) (Pure.pure a) := by
  rintro s s' _ _ hs ⟨⟩
  exact ⟨s', rfl, hs⟩

theorem throw (e : Halt) (y : Eval F α) : Simulates (throw e) y := by
  intro s s' a t _ h
  cases h

theorem bind {x y : Eval F α} {f g : α → Eval F β} (hx : Simulates x y)
    (hf : ∀ a, Simulates (f a) (g a)) : Simulates (x >>= f) (y >>= g) := by
  intro s s' b t hs h
  rcases he : exec x s with ⟨e | a, u⟩
  · rw [exec_bind, he] at h
    cases h
  · obtain ⟨u', hu', hu⟩ := hx s s' a u hs he
    rw [exec_bind_ok he] at h
    obtain ⟨t', ht', ht⟩ := hf a u u' b t hu h
    exact ⟨t', (exec_bind_ok hu').trans ht', ht⟩

theorem get {f g : Interpreter F → Eval F α}
    (h : ∀ heap env allocated tr tr',
      Simulates (f ⟨heap, env, allocated, tr⟩) (g ⟨heap, env, allocated, tr'⟩)) :
    Simulates (get >>= f) (get >>= g) := by
  intro s s' a t hs hx
  obtain ⟨heap, env, allocated, tr⟩ := s
  obtain ⟨heap', env', allocated', tr'⟩ := s'
  obtain ⟨hheap, henv, hallocated⟩ := hs
  simp only at hheap henv hallocated
  subst hheap henv hallocated
  rw [exec_get_bind] at hx ⊢
  refine h _ _ _ tr tr' _ _ a t ?_ hx
  exact ⟨rfl, rfl, rfl⟩

theorem modify {f g : Interpreter F → Interpreter F}
    (h : ∀ s s', SameMemory s s' → SameMemory (f s) (g s')) :
    Simulates (modify f : Eval F PUnit) (modify g) := by
  rintro s s' _ _ hs ⟨⟩
  exact ⟨g s', rfl, h s s' hs⟩

theorem ite {c : Prop} [Decidable c] {x y x' y' : Eval F α} (hx : Simulates x x')
    (hy : Simulates y y') : Simulates (if c then x else y) (if c then x' else y') := by
  by_cases hc : c
  · simpa [hc] using hx
  · simpa [hc] using hy

theorem onHeap (f : Heap F → α × Heap F) : Simulates (onHeap f) (onHeap f) := by
  rintro ⟨_, _, _, tr⟩ ⟨_, _, _, tr'⟩ _ _ ⟨rfl, rfl, rfl⟩ ⟨⟩
  exact ⟨_, rfl, rfl, rfl, rfl⟩

theorem gcAdd (o : Nat) : Simulates (F := F) (gcAdd o) (gcAdd o) :=
  modify fun s s' ⟨hh, he, ha⟩ => ⟨hh, he, by rw [ha]⟩

theorem gcAddRecursive (o : Nat) : Simulates (F := F) (gcAddRecursive o) (gcAddRecursive o) :=
  modify fun s s' ⟨hh, he, ha⟩ => ⟨by rw [hh], he, by rw [hh, ha]⟩

theorem allocate (c : Cell F) : Simulates (allocate c) (allocate c) :=
  (onHeap _).bind fun o => (gcAdd o).bind fun _ => pure o

theorem holding {os : List Nat} {x y : Eval F α} (h : Simulates x y) :
    Simulates (holding os x) (holding os y) := by
  refine .bind (.modify fun _ _ ⟨hh, he, ha⟩ => ⟨hh, he, ha⟩) fun _ => .bind h fun r => ?_
  exact .bind (.modify fun _ _ ⟨hh, he, ha⟩ => ⟨hh, he, ha⟩) fun _ => .pure r

theorem notChecked {x y : Eval F Nat} (h : Simulates x y) :
    Simulates (notChecked x) (notChecked y) := by
  refine .bind h fun r => ?_
  exact .bind (.modify fun _ _ ⟨hh, he, ha⟩ => ⟨hh, he, ha⟩) fun _ => .pure r

theorem inEnvironment {env : Nat} {x y : Eval F α} (h : Simulates x y) :
    Simulates (inEnvironment env x) (inEnvironment env y) := by
  refine .get fun heap old allocated tr tr' => ?_
  refine .bind (.modify fun _ _ ⟨hh, _, ha⟩ => ⟨hh, rfl, ha⟩) fun _ => .bind h fun r => ?_
  exact .bind (.modify fun _ _ ⟨hh, _, ha⟩ => ⟨hh, rfl, ha⟩) fun _ => .pure r

theorem orUndefined (x : Option α) : Simulates (F := F) (orUndefined x) (orUndefined x) := by
  cases x with
  | none => exact throw _ _
  | some a => exact pure a

theorem ofBool (b : Bool) : Simulates (F := F) (ofBool b) (ofBool b) :=
  ite (allocate _) (allocate _)

end Simulates

section primitives

theorem simulates_quote :
    Simulates (Primitives.quote args : Eval F Nat) (Primitives.quote args) := by
  unfold Primitives.quote
  exact .get fun _ _ _ _ _ => .ite (.pure 0) (.pure _)

theorem simulates_atom (hev : SimulatesAll ev ev') :
    Simulates (Primitives.atom ev args) (Primitives.atom ev' args) := by
  unfold Primitives.atom
  refine .get fun _ _ _ _ _ => .ite (.pure 0) (.bind (.notChecked (hev _)) fun v => ?_)
  exact .get fun _ _ _ _ _ => .ofBool _

theorem simulates_eq [CFloat F] (hev : SimulatesAll ev ev') :
    Simulates (Primitives.eq ev args) (Primitives.eq ev' args) := by
  unfold Primitives.eq
  refine .get fun _ _ _ _ _ => .ite (.pure 0) (.bind (.holding (hev _)) fun v => ?_)
  refine .ite (.pure 0) (.get fun _ _ _ _ _ => .bind (.holding (hev _)) fun w => ?_)
  exact .ite (.pure 0) (.get fun _ _ _ _ _ => .ofBool _)

theorem simulates_car (hev : SimulatesAll ev ev') :
    Simulates (Primitives.car ev args) (Primitives.car ev' args) := by
  unfold Primitives.car
  refine .get fun _ _ _ _ _ => .ite (.pure 0) (.bind (hev _) fun v => .get fun _ _ _ _ _ => ?_)
  exact .ite (.pure 0) (.ite (.pure 0) (.ite (.allocate _) (.pure _)))

theorem simulates_cdr (hev : SimulatesAll ev ev') :
    Simulates (Primitives.cdr ev args) (Primitives.cdr ev' args) := by
  unfold Primitives.cdr
  refine .get fun _ _ _ _ _ => .ite (.pure 0) (.bind (hev _) fun v => .get fun _ _ _ _ _ => ?_)
  exact .ite (.pure 0) (.ite (.pure 0) (.ite (.allocate _) (.ite (.allocate _) (.pure _))))

theorem simulates_cons (hev : SimulatesAll ev ev') :
    Simulates (Primitives.cons ev args) (Primitives.cons ev' args) := by
  unfold Primitives.cons
  refine .get fun _ _ _ _ _ => .ite (.pure 0) (.ite (.pure 0) ?_)
  refine .bind (.holding (hev _)) fun v => .ite (.pure 0) (.bind (.holding (hev _)) fun w => ?_)
  exact .ite (.pure 0) (.get fun _ _ _ _ _ => .ite (.pure 0) (.allocate _))

theorem simulates_cond (hev : SimulatesAll ev ev') (hf : fuel ≤ fuel') :
    Simulates (Primitives.cond ev fuel args) (Primitives.cond ev' fuel' args) := by
  induction fuel generalizing fuel' args with
  | zero => exact .throw _ _
  | succ fuel ih =>
    obtain _ | fuel' := fuel'
    · omega
    unfold Primitives.cond
    refine .get fun _ _ _ _ _ => .ite (.allocate _) (.ite (.pure 0) (.ite (.pure 0) ?_))
    refine .ite (.pure 0) (.ite (.pure 0) (.bind (.notChecked (.holding (hev _))) fun v => ?_))
    refine .get fun _ _ _ _ _ => .ite (.pure 0) (.ite (.ite (.pure 0) (hev _)) ?_)
    exact ih (Nat.le_of_succ_le_succ hf)

theorem simulates_store [CFloat F] (name value : Nat) :
    Simulates (Primitives.store name value : Eval F Nat) (Primitives.store name value) := by
  unfold Primitives.store
  refine .bind (.onHeap _) fun w => .ite (.pure 0) (.get fun _ _ _ _ _ => ?_)
  refine .ite (.bind ?_ fun _ => .pure value) (.bind ?_ fun _ => .pure w)
  · refine .get fun _ _ _ _ _ => .bind (.onHeap _) fun _ => .bind (.onHeap _) fun _ => ?_
    refine .bind (.onHeap _) fun _ => .bind (.onHeap _) fun _ => ?_
    exact .modify fun _ _ ⟨hh, _, ha⟩ => ⟨hh, rfl, ha⟩
  · exact .modify fun _ _ ⟨hh, he, ha⟩ => ⟨by rw [hh], he, ha⟩

theorem simulates_set [CFloat F] (hev : SimulatesAll ev ev') :
    Simulates (Primitives.set ev args) (Primitives.set ev' args) := by
  unfold Primitives.set
  refine .get fun _ _ _ _ _ => .ite (.pure 0) (.bind (.holding (hev _)) fun name => ?_)
  refine .get fun _ _ _ _ _ => .ite (.pure 0) (.ite (.pure 0) (.ite (.pure 0) ?_))
  exact .bind (.holding (hev _)) fun v => .ite (.pure 0) (simulates_store name v)

theorem simulates_env : Simulates (Primitives.env args : Eval F Nat) (Primitives.env args) := by
  unfold Primitives.env
  exact .get fun _ _ _ _ _ => .ite (.pure 0) (.pure _)

theorem simulates_lambda [CFloat F] :
    Simulates (Primitives.lambda args : Eval F Nat) (Primitives.lambda args) := by
  unfold Primitives.lambda
  refine .get fun _ _ _ _ _ => .ite (.pure 0) (.ite (.pure 0) (.ite (.pure 0) (.ite (.pure 0) ?_)))
  refine .bind (.onHeap _) fun _ => .bind (.onHeap _) fun _ => .ite ?_ ?_
  · exact .bind (.modify fun _ _ ⟨hh, he, ha⟩ => ⟨by rw [hh], he, ha⟩) fun _ => .pure 0
  · refine .get fun _ _ _ _ _ => .bind (.orUndefined _) fun _ => ?_
    refine .bind (.modify fun _ _ ⟨_, he, ha⟩ => ⟨rfl, he, ha⟩) fun _ => ?_
    exact .bind (.onHeap _) fun o => .bind (.gcAddRecursive _) fun _ => .pure o

theorem simulates_applyArithmetic [CFloat F] {intOp : Int → Int → Option Int}
    {floatOp floatOp' : F → F → Eval F F} (hev : SimulatesAll ev ev')
    (hop : ∀ x y, Simulates (floatOp x y) (floatOp' x y)) :
    Simulates (Primitives.applyArithmetic ev args intOp floatOp)
      (Primitives.applyArithmetic ev' args intOp floatOp') := by
  unfold Primitives.applyArithmetic
  refine .get fun _ _ _ _ _ => .ite (.pure 0) (.bind (.holding (hev _)) fun v => ?_)
  refine .get fun _ _ _ _ _ =>
    .ite (.pure 0) (.ite (.pure 0) (.bind (.holding (hev _)) fun w => ?_))
  refine .get fun _ _ _ _ _ => .ite (.pure 0) (.ite (.pure 0) (.ite ?_ ?_))
  · exact .bind (hop _ _) fun _ => .allocate _
  · exact .bind (.orUndefined _) fun _ => .allocate _

theorem simulates_compareNumbers [CFloat F] {intOp : Int → Int → Bool} {floatOp : F → F → Bool}
    (hev : SimulatesAll ev ev') : Simulates (Primitives.compareNumbers ev args intOp floatOp)
      (Primitives.compareNumbers ev' args intOp floatOp) := by
  unfold Primitives.compareNumbers
  refine .get fun _ _ _ _ _ => .ite (.pure 0) (.bind (.holding (hev _)) fun v => ?_)
  refine .get fun _ _ _ _ _ =>
    .ite (.pure 0) (.ite (.pure 0) (.bind (.holding (hev _)) fun w => ?_))
  exact .get fun _ _ _ _ _ => .ite (.pure 0) (.ite (.pure 0) (.ofBool _))

theorem simulates_modFloats [CFloat F] (hf : fuel ≤ fuel') (x y : F) :
    Simulates (modFloats fuel x y) (modFloats fuel' x y) := by
  unfold modFloats
  generalize absFloat x = x, absFloat y = y
  induction fuel generalizing fuel' x with
  | zero => exact .throw _ _
  | succ fuel ih =>
    obtain _ | fuel' := fuel'
    · omega
    exact .ite (ih (Nat.le_of_succ_le_succ hf) _) (.pure x)

theorem simulates_primitive [CFloat F] (f : Primitive) (hev : SimulatesAll ev ev')
    (hf : fuel ≤ fuel') : Simulates (f.run ev fuel args) (f.run ev' fuel' args) := by
  cases f with
  | quote => exact simulates_quote
  | atom => exact simulates_atom hev
  | eq => exact simulates_eq hev
  | car => exact simulates_car hev
  | cdr => exact simulates_cdr hev
  | cons => exact simulates_cons hev
  | cond => exact simulates_cond hev hf
  | set => exact simulates_set hev
  | env => exact simulates_env
  | lambda => exact simulates_lambda
  | defmacro => exact .pure 0
  | add =>
    simp only [Primitive.run, Primitives.add]
    exact simulates_applyArithmetic hev fun _ _ => .pure _
  | sub =>
    simp only [Primitive.run, Primitives.sub]
    exact simulates_applyArithmetic hev fun _ _ => .pure _
  | mul =>
    simp only [Primitive.run, Primitives.mul]
    exact simulates_applyArithmetic hev fun _ _ => .pure _
  | divide =>
    simp only [Primitive.run, Primitives.divide]
    exact simulates_applyArithmetic hev fun _ _ => .pure _
  | mod =>
    simp only [Primitive.run, Primitives.mod]
    exact simulates_applyArithmetic hev (simulates_modFloats hf)
  | equal =>
    simp only [Primitive.run, Primitives.equal]
    exact simulates_compareNumbers hev
  | gt =>
    simp only [Primitive.run, Primitives.gt]
    exact simulates_compareNumbers hev
  | gte =>
    simp only [Primitive.run, Primitives.gte]
    exact simulates_compareNumbers hev
  | lt =>
    simp only [Primitive.run, Primitives.lt]
    exact simulates_compareNumbers hev
  | lte =>
    simp only [Primitive.run, Primitives.lte]
    exact simulates_compareNumbers hev

end primitives

section apply
variable {names oper o : Nat}

theorem simulates_associate (hev : SimulatesAll ev ev') (hf : fuel ≤ fuel') :
    Simulates (associate ev fuel names args) (associate ev' fuel' names args) := by
  induction fuel generalizing fuel' names args with
  | zero => exact .throw _ _
  | succ fuel ih =>
    obtain _ | fuel' := fuel'
    · omega
    unfold associate
    refine .get fun _ _ _ _ _ => .ite (.pure 0) (.bind (.notChecked (.holding (hev _))) fun v => ?_)
    refine .bind (.onHeap _) fun pair => .bind (.gcAdd _) fun _ => .get fun _ _ _ _ _ => ?_
    refine .bind (.gcAdd _) fun _ => ?_
    exact .bind (.holding (ih (Nat.le_of_succ_le_succ hf))) fun rest => .allocate _

theorem simulates_closurePartialApplication (hev : SimulatesAll ev ev') (hf : fuel ≤ fuel') :
    Simulates (closurePartialApplication ev fuel oper args)
      (closurePartialApplication ev' fuel' oper args) := by
  unfold closurePartialApplication
  refine .get fun _ _ _ _ _ => .ite (.pure 0) (.bind (.onHeap _) fun params => ?_)
  refine .bind (.gcAddRecursive _) fun _ => .bind (.onHeap _) fun procedure => ?_
  refine .bind (.gcAddRecursive _) fun _ => .bind (.onHeap _) fun captCopy => ?_
  refine .bind (.gcAddRecursive _) fun _ => .get fun _ _ _ _ _ => ?_
  refine .bind (.holding (simulates_associate hev hf)) fun _ => .bind (.onHeap _) fun _ => ?_
  exact .bind (.onHeap _) fun r => .bind (.gcAdd _) fun _ => .pure r

theorem simulates_applyBody (hev : SimulatesAll ev ev') (hf : fuel ≤ fuel') :
    Simulates (applyBody ev fuel oper args) (applyBody ev' fuel' oper args) := by
  unfold applyBody
  refine .get fun _ _ _ _ _ => .bind (.holding ?_) fun tmpEnv => .bind (.onHeap _) fun _ => ?_
  · refine .bind (simulates_associate hev hf) fun frame => .get fun _ _ _ _ _ => ?_
    exact .onHeap _
  · refine .bind (.gcAddRecursive _) fun _ => .bind (.onHeap _) fun newEnv => ?_
    exact .get fun _ _ _ _ _ => .inEnvironment (hev _)

variable [CFloat F]

theorem simulates_apply (hev : SimulatesAll ev ev') (hf : fuel ≤ fuel') :
    Simulates (apply ev fuel oper args) (apply ev' fuel' oper args) := by
  unfold apply
  refine .get fun heap _ _ _ _ => ?_
  dsimp only
  cases cellAt heap oper with
  | none => exact .pure 0
  | some c =>
    cases c with
    | primitive f => exact simulates_primitive f hev hf
    | closure p b c n =>
      exact .ite (.pure 0) (.ite (simulates_closurePartialApplication hev hf)
        (simulates_applyBody hev hf))
    | _ => exact .pure 0

theorem simulates_evalStep (hev : SimulatesAll ev ev') (hf : fuel ≤ fuel') :
    Simulates (evalStep ev fuel o) (evalStep ev' fuel' o) := by
  unfold evalStep
  refine .get fun _ _ _ _ _ => .ite (.pure _) (.ite (.pure o) (.ite (.pure 0) (.ite (.pure o) ?_)))
  exact .bind (.holding (hev _)) fun oper => .get fun _ _ _ _ _ => simulates_apply hev hf

theorem simulates_eval (hf : fuel ≤ fuel') :
    SimulatesAll (eval fuel : Nat → Eval F Nat) (eval fuel') := by
  induction fuel generalizing fuel' with
  | zero => exact fun o => .throw _ _
  | succ fuel ih =>
    obtain _ | fuel' := fuel'
    · omega
    have hle := Nat.le_of_succ_le_succ hf
    intro o
    refine .bind (simulates_evalStep (ih hle) hle) fun r => ?_
    exact .bind (.modify fun _ _ ⟨hh, he, ha⟩ => ⟨hh, he, ha⟩) fun _ => .pure r

end apply

section returns
variable {s t u : Interpreter F} {x y : Eval F α} {a : α}

/-- From any state with the memory of `s`, `x` returns `a` and leaves the memory of `t`. -/
def Returns (x : Eval F α) (s : Interpreter F) (a : α) (t : Interpreter F) : Prop :=
  ∀ s', SameMemory s s' → ∃ t', exec x s' = (.ok a, t') ∧ SameMemory t t'

theorem Simulates.returns (h : Simulates x y) (hx : exec x s = (.ok a, t)) : Returns y s a t :=
  fun s' hs => h s s' a t hs hx

theorem Returns.pure (a : α) : Returns (Pure.pure a) s a s := fun s' hs => ⟨s', rfl, hs⟩

theorem Returns.bind {f : α → Eval F β} {b : β} (hx : Returns x s a t)
    (hf : Returns (f a) t b u) : Returns (x >>= f) s b u := by
  intro s' hs
  obtain ⟨t', ht', ht⟩ := hx s' hs
  obtain ⟨u', hu', hu⟩ := hf t' ht
  exact ⟨u', (exec_bind_ok ht').trans hu', hu⟩

theorem Returns.get {f : Interpreter F → Eval F α}
    (h : ∀ tr, Returns (f { s with trace := tr }) s a t) : Returns (get >>= f) s a t := by
  rintro ⟨heap, env, allocated, tr⟩ ⟨rfl, rfl, rfl⟩
  exact h tr _ ⟨rfl, rfl, rfl⟩

theorem Returns.modify {f : Interpreter F → Interpreter F}
    (h : ∀ s', SameMemory s s' → SameMemory t (f s')) :
    Returns (modify f : Eval F PUnit) s ⟨⟩ t :=
  fun s' hs => ⟨f s', rfl, h s' hs⟩

theorem Returns.holding {os : List Nat} (h : Returns x s a t) : Returns (holding os x) s a t := by
  refine .bind (.modify fun _ ⟨hh, he, ha⟩ => ⟨hh, he, ha⟩) (.bind h ?_)
  exact .bind (.modify fun _ ⟨hh, he, ha⟩ => ⟨hh, he, ha⟩) (.pure a)

theorem Returns.notChecked {x : Eval F Nat} {v : Nat} (h : Returns x s v t) :
    Returns (notChecked x) s v t :=
  .bind h (.bind (.modify fun _ ⟨hh, he, ha⟩ => ⟨hh, he, ha⟩) (.pure v))

variable [CFloat F] {o p v : Nat} {n : Text} {f : Primitive}

theorem Returns.eval (h : Returns (evalStep (eval fuel) fuel o) s v t) :
    Returns (eval (fuel + 1) o) s v t :=
  .bind h (.bind (.modify fun _ ⟨hh, he, ha⟩ => ⟨hh, he, ha⟩) (.pure v))

theorem returns_name (ho : cellAt s.heap o = some (.atom n)) (hn : isTruthName n = false) :
    Returns (eval (fuel + 1) o) s (lookup s.heap o s.env) s := by
  refine .eval ?_
  unfold evalStep
  refine .get fun tr => ?_
  have hatom : isAtom s.heap o = true := by simp [isAtom, ho]
  have hT : isT s.heap o = false := by simp [isT, hatom, atomName, ho, hn]
  simpa only [hatom, hT, if_true, Bool.false_eq_true, if_false] using Returns.pure _

theorem returns_application {x y : Nat} (ho : cellAt s.heap o = some (.list x y)) (hx : x ≠ 0)
    (hoper : Returns (eval fuel x) s p s) (hp : cellAt s.heap p = some (.primitive f))
    (hf : Returns (f.run (eval fuel) fuel y) s v t) : Returns (eval (fuel + 1) o) s v t := by
  refine .eval ?_
  unfold evalStep
  refine .get fun tr => ?_
  simp only [isAtom, isNumber, isFloat, isInt, isPrimitive, isClosure, isNil, isList, car, cdr, ho,
    Bool.or_self, Bool.false_eq_true, if_false, Bool.not_true, beq_iff_eq, Bool.and_eq_true, hx,
    false_and, and_false]
  refine .bind hoper.holding (.get fun tr' => ?_)
  simp only [ho]
  refine .get fun tr'' => ?_
  simpa only [hp] using hf

theorem returns_quote {q x y z : Nat} (ho : cellAt s.heap o = some (.list x y)) (hx : x ≠ 0)
    (hoper : Returns (eval fuel x) s p s) (hp : cellAt s.heap p = some (.primitive .quote))
    (hy : cellAt s.heap y = some (.list q z)) (hlen : listLength s.heap y = 1) :
    Returns (eval (fuel + 1) o) s q s := by
  refine returns_application ho hx hoper hp ?_
  refine .get fun tr => ?_
  simpa only [hlen, car, hy, ne_eq, not_true_eq_false, if_false] using Returns.pure q

end returns
end Lisp
