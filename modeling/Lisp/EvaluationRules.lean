import Lisp.ClosedApplication

/-! Rules for the results of expressions whose evaluation stores nothing, wherever the bindings are
the given ones. -/
namespace Lisp
variable {F : Type} [CFloat F] {ρ : Scope F} {op args e e' p b k u v : Obj F} {n : Text} {a z : Int}
  {f : Primitive} {names : List (Option Text)} {vs : List (Obj F)} {fuel : Nat}
  {x y x' : Except Halt (Obj F)} {xs : List (Except Halt (Obj F))}

/-- Wherever the bindings are `ρ`, the evaluation of `t` ends as `x`. -/
def HasResult (ρ : Scope F) (t : Obj F) (x : Except Halt (Obj F)) : Prop :=
  ∃ fuel₀, ∀ fuel, fuel₀ ≤ fuel → EndsIn ρ (eval fuel) t x

namespace HasResult

/-- An application of a primitive. -/
theorem primitive (hop : HasValue ρ op (.primitive f)) (hnil : (Obj.list op args).isNil = false)
    (h : ∃ fuel₀, ∀ fuel, fuel₀ ≤ fuel → EndsIn ρ (f.run (eval fuel) fuel) args x) :
    HasResult ρ (.list op args) x := by
  obtain ⟨f₁, hop⟩ := hop
  obtain ⟨f₂, h⟩ := h
  refine ⟨max f₁ f₂ + 1, fun fuel hf => ?_⟩
  obtain ⟨j, rfl⟩ : ∃ j, fuel = j + 1 := ⟨fuel - 1, by omega⟩
  refine endsIn_application hnil (hop j (by omega)) (g := fun _ => x) ?_
  rintro d r y _ us ys hρ ⟨⟩ hr hy
  unfold apply
  apply Ends.get
  simp only [hr.leaf_inv (c := .primitive f) rfl]
  exact h j (by omega) d y ys hρ hy

theorem all {es : List (Obj F)} (h : List.Forall₂ (HasResult ρ) es xs) :
    ∃ fuel₀, ∀ fuel, fuel₀ ≤ fuel → List.Forall₂ (EndsIn ρ (eval fuel)) es xs := by
  induction h with
  | nil => exact ⟨0, fun _ _ => .nil⟩
  | cons he _ ih =>
    obtain ⟨f₁, h₁⟩ := he
    obtain ⟨f₂, h₂⟩ := ih
    exact ⟨max f₁ f₂, fun fuel hf => .cons (h₁ fuel (by omega)) (h₂ fuel (by omega))⟩

section calls
variable {n : Int} (hop : HasValue ρ op (.closure p b k n)) (hp : p.paramNames = some names)
  (hnil : (Obj.list op args).isNil = false) (htail : args.IsTail)
include hop hp hnil htail

/-- A call with all the arguments: they are bound to the parameters, and then the body is evaluated
where these and the captured names are bound before the names of the call. -/
theorem applied (hlen : (xs.length : Int) = n) (hargs : List.Forall₂ (HasResult ρ) args.cells xs)
    (h : ∃ fuel₀, ∀ fuel, fuel₀ ≤ fuel →
      (∀ l, associateTree fuel names xs = .ok l → EndsIn (k.bindings ++ l ++ ρ) (eval fuel) b x) ∧
      ∀ e, associateTree fuel names xs = .error e → x = .error e) :
    HasResult ρ (.list op args) x := by
  obtain ⟨f₁, hop⟩ := hop
  obtain ⟨f₂, hends⟩ := all hargs
  obtain ⟨f₃, h⟩ := h
  refine ⟨max (max f₁ f₂) f₃ + 1, fun fuel hf => ?_⟩
  obtain ⟨j, rfl⟩ : ∃ j, fuel = j + 1 := ⟨fuel - 1, by omega⟩
  refine endsIn_application hnil (hop j (by omega)) (g := fun _ => x) ?_
  rintro d r y _ us ys hρ ⟨⟩ hr hy
  obtain ⟨_, _, _, _, _, _, hcell, -⟩ := hr.closure_inv
  have hnargs : nargs d.state.heap r = n := by simp [nargs, hcell]
  have hlength : args.length = xs.length := by
    rw [← length_cells (d.wf.heap.cells.tree hy) htail, hargs.length_eq]
  unfold apply
  apply Ends.get
  simp only [hcell, hnargs, hy.listLength, hlength, hlen, lt_self_iff_false, if_false]
  obtain ⟨hbody, herror⟩ := h j (by omega)
  have hargs := inTurn_of_forall (hends j (by omega))
  have hend := ends_applyBody j (fun _ _ => x) hargs hρ hr (paramTree_iff.2 hp) hy htail hbody
  cases hassociate : associateTree j names xs with
  | ok l =>
    rw [hassociate] at hend
    exact hend
  | error e =>
    rw [hassociate] at hend
    rw [herror e hassociate]
    exact hend

theorem call (hlen : (vs.length : Int) = n) (hargs : List.Forall₂ (HasValue ρ) args.cells vs)
    (hbody : HasResult (k.bindings ++ names.zip vs ++ ρ) b x) : HasResult ρ (.list op args) x := by
  obtain ⟨f₁, hbody⟩ := hbody
  have hresults : List.Forall₂ (HasResult ρ) args.cells (vs.map .ok) :=
    List.forall₂_map_right_iff.2 hargs
  refine applied hop hp hnil htail (by rwa [List.length_map]) hresults
    ⟨max f₁ (vs.length + 1), fun fuel hf => ?_⟩
  have hassociate : associateTree fuel names (vs.map .ok) = .ok (names.zip vs) :=
    associateTree_ok (by omega)
  rw [hassociate]
  refine ⟨fun l hl => ?_, fun e he => ?_⟩
  · obtain rfl := Except.ok.inj hl
    exact hbody fuel (by omega)
  · cases he

end calls

/-- The clauses of `cond`: the first whose predicate is not the empty list has the expression. -/
inductive Chooses (ρ : Scope F) : Obj F → Obj F → Prop
  | holds {p e u rest : Obj F} (hp : HasValue ρ p u) (hprimitive : u.isPrimitive = false)
      (hnil : u.isNil = false) (hnull : e.isNull = false) :
      Chooses ρ (.list (.list p (.list e .null)) rest) e
  | next {p e e' rest : Obj F} (hp : HasValue ρ p .nil) (hrest : Chooses ρ rest e) :
      Chooses ρ (.list (.list p (.list e' .null)) rest) e

theorem Chooses.endsIn (h : Chooses ρ args e) (he : HasResult ρ e x) : ∃ fuel₀, ∀ fuel,
    fuel₀ ≤ fuel → ∀ k, fuel₀ ≤ k → EndsIn ρ (Primitives.cond (eval fuel) k) args x := by
  have hpair (p e : Obj F) : (Obj.list p (.list e .null)).isList = true ∧
      (Obj.list p (.list e .null)).isNil = false ∧ (Obj.list p (.list e .null)).length = 2 := by
    cases p <;> exact ⟨rfl, rfl, rfl⟩
  induction h with
  | @holds p e u rest hp hprimitive hnil hnull =>
    obtain ⟨f₁, hp⟩ := hp
    obtain ⟨f₂, he⟩ := he
    refine ⟨max (max f₁ f₂) 1, fun fuel hf k hk => ?_⟩
    obtain ⟨j, rfl⟩ : ∃ j, k = j + 1 := ⟨k - 1, by omega⟩
    obtain ⟨h₁, h₂, h₃⟩ := hpair p e
    have hclause := @ends_clause F j ρ (eval fuel) (.list p (.list e .null)) rest (.ok u) x
      (.ok .null) (fun _ => hp fuel (by omega)) (fun _ _ _ _ _ => he fuel (by omega)) ?_
    · simp only [Bind.bind, Except.bind, h₁, h₂, h₃, Obj.ith, hnull, hprimitive, hnil,
        Bool.not_true, Bool.not_false, Bool.false_eq_true, if_false, if_true, ne_eq,
        not_true_eq_false] at hclause
      exact hclause
    · rintro w ⟨⟩ - hw
      rw [hnil] at hw
      cases hw
  | @next p e e' rest hp _ ih =>
    obtain ⟨f₁, hp⟩ := hp
    obtain ⟨f₂, ih⟩ := ih he
    refine ⟨max f₁ f₂ + 1, fun fuel hf k hk => ?_⟩
    obtain ⟨j, rfl⟩ : ∃ j, k = j + 1 := ⟨k - 1, by omega⟩
    obtain ⟨h₁, h₂, h₃⟩ := hpair p e'
    have hclause := @ends_clause F j ρ (eval fuel) (.list p (.list e' .null)) rest (.ok .nil)
      (.ok .null) x (fun _ => hp fuel (by omega)) ?_
      (fun _ _ _ _ => ih fuel (by omega) j (by omega))
    · simp only [h₁, h₂, h₃, Bool.not_true, Bool.false_eq_true, if_false, ne_eq,
        not_true_eq_false] at hclause
      exact hclause
    · rintro w ⟨⟩ - hw
      cases hw

theorem cond (hop : HasValue ρ op (.primitive .cond)) (hnil : (Obj.list op args).isNil = false)
    (h : Chooses ρ args e) (he : HasResult ρ e x) : HasResult ρ (.list op args) x := by
  obtain ⟨fuel₀, h⟩ := h.endsIn he
  exact primitive hop hnil ⟨fuel₀, fun fuel hf => h fuel hf fuel hf⟩

section operations
variable {b' : Int} {h : Halt}

theorem car (hop : HasValue ρ op (.primitive .car)) (hx : HasResult ρ e x) :
    HasResult ρ (.list op (.list e .null)) (Obj.carValue <$> x) := by
  obtain ⟨f₁, hx⟩ := hx
  exact primitive hop (by cases op <;> rfl) ⟨f₁, fun fuel hf c o cs hρ hr =>
    ends_carOf (fun _ => hx fuel hf) hρ hr⟩

theorem cdr (hop : HasValue ρ op (.primitive .cdr)) (hx : HasResult ρ e x) :
    HasResult ρ (.list op (.list e .null)) (Obj.cdrValue <$> x) := by
  obtain ⟨f₁, hx⟩ := hx
  exact primitive hop (by cases op <;> rfl) ⟨f₁, fun fuel hf c o cs hρ hr =>
    ends_cdrOf (fun _ => hx fuel hf) hρ hr⟩

theorem cons (hop : HasValue ρ op (.primitive .cons)) (hx : HasValue ρ e u)
    (hu : u.isNull = false) (hnull : e'.isNull = false) (hy : HasResult ρ e' y) :
    HasResult ρ (.list op (.list e (.list e' .null))) (Obj.consValue u <$> y) := by
  obtain ⟨f₁, hx⟩ := hx
  obtain ⟨f₂, hy⟩ := hy
  refine primitive hop (by cases op <;> rfl) ⟨max f₁ f₂, fun fuel hf c o cs hρ hr => ?_⟩
  have hends := ends_consOf (fun _ _ => hx fuel (by omega))
    (fun _ _ _ _ _ => hy fuel (by omega)) hρ hr
  have hlen : (Obj.list e (.list e' .null)).length = 2 := by cases e <;> rfl
  have hith : (Obj.list e (.list e' .null)).ith 1 = e' := rfl
  simp only [hlen, hith, hnull, ne_eq, not_true_eq_false, Bool.false_eq_true, if_false, Bind.bind,
    Except.bind, hu] at hends
  exact hends

theorem operation (hf : f ∈ operators) (hop : HasValue ρ op (.primitive f))
    (hx : HasResult ρ e x) (hy : HasResult ρ e' y)
    (h : ∀ fuel, onNumbers 2 x y (arithmeticTree fuel f : Obj F → Obj F → _) = x') :
    HasResult ρ (.list op (.list e (.list e' .null))) x' := by
  obtain ⟨f₁, hx⟩ := hx
  obtain ⟨f₂, hy⟩ := hy
  refine primitive hop (by cases op <;> rfl) ⟨max f₁ f₂, fun fuel hf' c o cs hρ hr => ?_⟩
  change Ends c (f.run (eval fuel) fuel o) x'
  rw [run_operator hf, ← h fuel]
  exact ends_operation f (fun _ => hx fuel (by omega)) (fun _ _ _ _ => hy fuel (by omega)) hρ hr

/-- An operation on two ints. -/
theorem ints (hf : f ∈ operators) (hop : HasValue ρ op (.primitive f)) (hx : HasValue ρ e (.int a))
    (hy : HasValue ρ e' (.int b')) : HasResult ρ (.list op (.list e (.list e' .null)))
      (match intOp f a b' with
        | some z => .ok (.int z)
        | none => .error .undefined) :=
  operation hf hop hx hy fun _ => rfl

end operations

end HasResult

namespace HasValue

theorem int (z : Int) : HasValue ρ (.int z) (.int z) := by
  refine ⟨1, fun fuel hf => ?_⟩
  obtain ⟨j, rfl⟩ := Nat.exists_eq_add_of_le' hf
  rintro c o cs rfl hr
  exact follows_eval (j + 1) (supports_scopes c c) c o (.int z) cs rfl hr ⟨trivial, trivial⟩

theorem truth (hn : isTruthName n = true) : HasValue ρ (.atom n) (.atom n) := by
  refine ⟨1, fun fuel hf => ?_⟩
  obtain ⟨j, rfl⟩ := Nat.exists_eq_add_of_le' hf
  have h : EndsIn ρ (eval (j + 1)) (.atom n : Obj F) _ := endsIn_atom n
  rwa [if_pos hn] at h

theorem name (hn : isTruthName n = false) (hv : ρ.find n = some v) : HasValue ρ (.atom n) v := by
  refine ⟨1, fun fuel hf => ?_⟩
  obtain ⟨j, rfl⟩ := Nat.exists_eq_add_of_le' hf
  have h : EndsIn ρ (eval (j + 1)) (.atom n : Obj F) _ := endsIn_atom n
  rwa [if_neg (by simp [hn]), hv] at h

/-- An application of a primitive. -/
theorem primitive (hop : HasValue ρ op (.primitive f)) (hnil : (Obj.list op args).isNil = false)
    (h : ∃ fuel₀, ∀ fuel, fuel₀ ≤ fuel → EndsIn ρ (f.run (eval fuel) fuel) args (.ok v)) :
    HasValue ρ (.list op args) v := HasResult.primitive hop hnil h

theorem quote (hop : HasValue ρ op (.primitive .quote)) :
    HasValue ρ (.list op (.list v .null)) v := by
  have hquote : quoteTree (.list v .null) = v := by cases v <;> rfl
  refine hop.primitive (by cases op <;> rfl) ⟨0, fun _ _ _ _ _ _ hr => ?_⟩
  rw [← hquote]
  exact ends_quote hr

theorem lambda (hop : HasValue ρ op (.primitive .lambda))
    (hnil : (Obj.list op args).isNil = false) :
    HasValue ρ (.list op args) (Obj.lambda ρ.find args) :=
  hop.primitive hnil ⟨0, fun _ _ _ _ _ hρ hr => ends_lambda hρ hr⟩

/-- A call with all the arguments has the value of the body, where the captured names and the
parameters are bound before the names of the call. -/
theorem call {n : Int} (hop : HasValue ρ op (.closure p b k n)) (hp : p.paramNames = some names)
    (hlen : (vs.length : Int) = n) (hnil : (Obj.list op args).isNil = false) (htail : args.IsTail)
    (hargs : List.Forall₂ (HasValue ρ) args.cells vs)
    (hbody : HasValue (k.bindings ++ names.zip vs ++ ρ) b v) : HasValue ρ (.list op args) v :=
  HasResult.call hop hp hnil htail hlen hargs hbody

/-- The clauses of `cond`: the first whose predicate is not the empty list has the value. -/
inductive Clauses (ρ : Scope F) : Obj F → Obj F → Prop
  | holds {p e u v rest : Obj F} (hp : HasValue ρ p u) (hprimitive : u.isPrimitive = false)
      (hnil : u.isNil = false) (he : HasValue ρ e v) (hnull : e.isNull = false) :
      Clauses ρ (.list (.list p (.list e .null)) rest) v
  | next {p e v rest : Obj F} (hp : HasValue ρ p .nil) (hrest : Clauses ρ rest v) :
      Clauses ρ (.list (.list p (.list e .null)) rest) v

theorem Clauses.chooses (h : Clauses ρ args v) :
    ∃ e, HasResult.Chooses ρ args e ∧ HasValue ρ e v := by
  induction h with
  | holds hp hprimitive hnil he hnull => exact ⟨_, .holds hp hprimitive hnil hnull, he⟩
  | next hp _ ih =>
    obtain ⟨e, hchooses, he⟩ := ih
    exact ⟨e, .next hp hchooses, he⟩

theorem cond (hop : HasValue ρ op (.primitive .cond)) (hnil : (Obj.list op args).isNil = false)
    (h : Clauses ρ args v) : HasValue ρ (.list op args) v := by
  obtain ⟨e, hchooses, he⟩ := h.chooses
  exact HasResult.cond hop hnil hchooses he

section numbers
variable {b : Int}

theorem equal (hop : HasValue ρ op (.primitive .equal)) (hx : HasValue ρ e (.int a))
    (hy : HasValue ρ e' (.int b)) :
    HasValue ρ (.list op (.list e (.list e' .null))) (.ofBool (a == b)) := by
  obtain ⟨f₁, hx⟩ := hx
  obtain ⟨f₂, hy⟩ := hy
  have hnil : (Obj.list op (.list e (.list e' .null))).isNil = false := by cases op <;> rfl
  refine hop.primitive hnil ⟨max f₁ f₂, fun fuel hf c args cs hρ hr => ?_⟩
  exact ends_comparison (fun _ => hx fuel (by omega)) (fun _ _ _ _ => hy fuel (by omega)) hρ hr

/-- A difference that is in the range of `int`. -/
theorem sub (hop : HasValue ρ op (.primitive .sub)) (hx : HasValue ρ e (.int a))
    (hy : HasValue ρ e' (.int b)) (hrange : InInt (a - b)) :
    HasValue ρ (.list op (.list e (.list e' .null))) (.int (a - b)) := by
  have hsub : intOp .sub a b = some (a - b) := by
    rw [intOp, subInts, checkedInt_eq, if_pos hrange]
  have h := HasResult.ints (by simp [operators]) hop hx hy
  rwa [hsub] at h

end numbers

end HasValue
end Lisp
