import Lisp.ClosedApplication

/-! What expressions mean: a value that depends on what the names stand for, and on no memory. The
evaluator computes the meaning of every expression whose evaluation stores nothing. -/
namespace Lisp
variable {F : Type}

section meaning

/-- What the names stand for. -/
abbrev Names (F : Type) := Text → Option (Obj F)

/-- Bindings hide what the names stood for before. -/
def Names.bind (binds : Scope F) (names : Names F) : Names F := fun n =>
  (binds.find n).or (names n)

variable [CFloat F]

/-- `compare`, unless the result depends on how two lists or two closures share their parts. -/
def Obj.same : Obj F → Obj F → Option Bool
  | .int x, .int y => some (x == y)
  | .float x, .float y => some (CFloat.eq x y)
  | .primitive f, .primitive g => some (f == g)
  | .atom x, .atom y => some (x == y)
  | .list a d, .list a' d' =>
    if (Obj.list a d).isNil || (Obj.list a' d').isNil then
      some ((Obj.list a d).isNil && (Obj.list a' d').isNil)
    else none
  | .closure _ _ _ _, .closure _ _ _ _ => none
  | .null, .null => some true
  | _, _ => some false

/-- `eq`; an `outOfFuel` stands for what the meaning does not say. -/
def eqTree (ev : Obj F → Except Halt (Obj F)) (args : Obj F) : Except Halt (Obj F) :=
  if args.length ≠ 2 then .ok .null else do
  let u ← ev (args.ith 0)
  if u.isNull then return .null else
  let v ← ev (args.ith 1)
  if v.isNull then return .null else
  match u.same v with
  | some same => return .ofBool same
  | none => .error .outOfFuel

def primitiveMeaning (ev : Obj F → Except Halt (Obj F)) (args : Obj F) (names : Names F)
    (fuel : Nat) : Primitive → Except Halt (Obj F)
  | .set => .error .outOfFuel
  | .env => .error .outOfFuel
  | .eq => eqTree ev args
  | f => primitiveTree ev args names fuel f

def applyMeaning (ev : Names F → Obj F → Except Halt (Obj F)) (fuel : Nat) (names : Names F)
    (oper args : Obj F) : Except Halt (Obj F) :=
  match oper with
  | .primitive f => primitiveMeaning (ev names) args names fuel f
  | .closure p b k n =>
    if n < args.length then .ok .null else do
    let binds ← bindTrees (ev names) fuel p args
    if args.length < n then
      return .closure (p.drop args.length) b (Obj.bindTree (binds ++ k.bindings))
        (p.drop args.length).paramCount
    else ev (names.bind (k.bindings ++ binds)) b
  | _ => .ok .null

/-- The meaning of an expression, where the names stand for values. -/
def meaning : Nat → Names F → Obj F → Except Halt (Obj F)
  | 0, _, _ => .error .outOfFuel
  | _ + 1, names, .atom n => .ok (if isTruthName n then .atom n else (names n).getD .null)
  | fuel + 1, names, .list a d =>
    if (Obj.list a d).isNil then .ok (.list a d) else do
    let oper ← meaning fuel names a
    applyMeaning (meaning fuel) fuel names oper d
  | _ + 1, _, t => .ok t

end meaning

section realization
open ExceptState
variable {c : Config F} {ev : Nat → Eval F Nat} {evT : Obj F → Except Halt (Obj F)}
  {o args fuel : Nat} {t u : Obj F} {cs us : List Nat} {ρ l : Scope F}

/-- Wherever the bindings are `ρ`, `ev` computes what `evT` says of an expression. -/
def Realizes (ρ : Scope F) (ev : Nat → Eval F Nat) (evT : Obj F → Except Halt (Obj F)) : Prop :=
  ∀ t, evT t ≠ .error .outOfFuel → EndsIn ρ ev t (evT t)

theorem ok_bind {α β : Type} (a : α) (g : α → Except Halt β) : Except.ok a >>= g = g a := rfl

theorem ne_of_bind {α β : Type} {x : Except Halt α} {g : α → Except Halt β} {e : Halt}
    (h : x >>= g ≠ .error e) : x ≠ .error e := by
  rintro rfl
  exact h rfl

theorem Scope.find_append (l ρ : Scope F) : Scope.find (l ++ ρ) = Names.bind l (Scope.find ρ) := by
  funext n
  rw [Names.bind, Scope.find, Scope.find, Scope.find, List.find?_append, Option.map_or]

/-- The arguments that a call evaluates. -/
theorem Realizes.inTurn {names : List (Option Text)} {es : List (Obj F)} (hev : Realizes ρ ev evT)
    (hlen : es.length ≤ names.length)
    (h : associateTree fuel names (es.map evT) ≠ .error .outOfFuel) :
    InTurn ρ ev es (es.map evT) := by
  induction es generalizing fuel names with
  | nil => exact .nil
  | cons e es ih =>
    obtain _ | fuel := fuel
    · exact absurd rfl h
    obtain _ | ⟨name, names⟩ := names
    · cases hlen
    rw [List.map_cons, associateTree] at h
    have he := hev e (ne_of_bind h)
    rw [List.map_cons]
    cases hx : evT e with
    | error e' => exact .halt (hx ▸ he)
    | ok v =>
      rw [hx] at h
      exact .value (hx ▸ he) (ih (Nat.le_of_succ_le_succ hlen) (ne_of_bind h))

section primitives
variable (hev : Realizes ρ ev evT)
include hev

theorem Realizes.atom (hx : atomTree evT t ≠ .error .outOfFuel) (hρ : c.scope = ρ)
    (hr : Reads c.state.heap args t cs) : Ends c (Primitives.atom ev args) (atomTree evT t) := by
  refine ends_atomOf (fun hlen => hev _ ?_) hρ hr
  simp only [atomTree, hlen, ne_eq, not_true_eq_false, if_false] at hx
  exact ne_of_bind hx

theorem Realizes.car (hx : carTree evT t ≠ .error .outOfFuel) (hρ : c.scope = ρ)
    (hr : Reads c.state.heap args t cs) : Ends c (Primitives.car ev args) (carTree evT t) := by
  refine ends_carOf (fun hlen => hev _ ?_) hρ hr
  simp only [carTree, hlen, ne_eq, not_true_eq_false, if_false] at hx
  exact ne_of_bind hx

theorem Realizes.cdr (hx : cdrTree evT t ≠ .error .outOfFuel) (hρ : c.scope = ρ)
    (hr : Reads c.state.heap args t cs) : Ends c (Primitives.cdr ev args) (cdrTree evT t) := by
  refine ends_cdrOf (fun hlen => hev _ ?_) hρ hr
  simp only [cdrTree, hlen, ne_eq, not_true_eq_false, if_false] at hx
  exact ne_of_bind hx

theorem Realizes.cons (hx : consTree evT t ≠ .error .outOfFuel) (hρ : c.scope = ρ)
    (hr : Reads c.state.heap args t cs) : Ends c (Primitives.cons ev args) (consTree evT t) := by
  refine ends_consOf (fun hlen hnull => hev _ ?_) (fun hlen hnull u hu hu0 => hev _ ?_) hρ hr
  · simp only [consTree, hlen, hnull, ne_eq, not_true_eq_false, if_false, Bool.false_eq_true] at hx
    exact ne_of_bind hx
  · simp only [consTree, hlen, hnull, hu, ok_bind, hu0, ne_eq, not_true_eq_false, if_false,
      Bool.false_eq_true] at hx
    exact ne_of_bind hx

omit hev in
theorem isList_of_length {t : Obj F} (h : t.length = 2) : t.isList = true ∧ t.isNil = false := by
  cases t with
  | list a d => cases d <;> simp_all [Obj.length, Obj.isList, Obj.isNil]
  | _ => cases h

theorem Realizes.cond (hx : condTree evT fuel t ≠ .error .outOfFuel) (hρ : c.scope = ρ)
    (hr : Reads c.state.heap args t cs) (htail : t.IsTail) :
    Ends c (Primitives.cond ev fuel args) (condTree evT fuel t) := by
  induction fuel generalizing c args t cs with
  | zero => exact absurd rfl hx
  | succ fuel ih =>
    cases t with
    | null =>
      obtain rfl := hr.null_iff.2 rfl
      exact .get Ends.nil
    | list pair rest =>
      have hok := c.wf.heap.cells.tree hr
      by_cases hlen : pair.length = 2
      · obtain ⟨hlist, hnil⟩ := isList_of_length hlen
        simp only [condTree, hlist, hnil, hlen, Bool.not_true, Bool.false_eq_true, if_false, ne_eq,
          not_true_eq_false] at hx
        refine ends_clause (fun _ => hev _ (ne_of_bind hx)) ?_ ?_ c args cs hρ hr
        · intro p hp hprimitive hnil hnull
          simp only [hp, ok_bind, hprimitive, hnil, hnull, Bool.not_false, Bool.false_eq_true,
            if_false, if_true] at hx
          exact hev _ hx
        · intro p hp hprimitive hnil d o ds hρ hr
          simp only [hp, ok_bind, hprimitive, hnil, Bool.not_true, Bool.false_eq_true,
            if_false] at hx
          exact ih hx hρ hr hok.2.2
      · have hmalformed : EndsIn ρ (Primitives.cond ev (fuel + 1)) (.list pair rest) _ :=
          ends_clause (x := .error .undefined) (y := .ok .null) (z := .ok .null)
            (fun h => absurd h hlen) (by simp) (by simp)
        replace hmalformed := hmalformed c args cs hρ hr
        simp only [condTree, hlen, ne_eq, not_false_eq_true, if_true, ite_self] at hmalformed ⊢
        exact hmalformed
    | _ => exact htail.elim

/-- The two operands of an operation on numbers. -/
theorem Realizes.operands {op : Obj F → Obj F → Except Halt (Obj F)}
    (hx : numbersTree evT t op ≠ .error .outOfFuel) :
    (t.length = 2 → EndsIn ρ ev (t.ith 0) (evT (t.ith 0))) ∧
      (t.length = 2 → ∀ u, evT (t.ith 0) = .ok u → u.isNumber = true →
        EndsIn ρ ev (t.ith 1) (evT (t.ith 1))) := by
  refine ⟨fun hlen => hev _ ?_, fun hlen u hu hnumber => hev _ ?_⟩
  · simp only [numbersTree, hlen, ne_eq, not_true_eq_false, if_false] at hx
    exact ne_of_bind hx
  · simp only [numbersTree, hlen, hu, ok_bind, hnumber, ne_eq, not_true_eq_false, if_false,
      Bool.not_true, Bool.false_eq_true] at hx
    exact ne_of_bind hx

variable [CFloat F]

omit hev [CFloat F] in
theorem isNil_list (a d : Obj F) : (Obj.list a d).isNil = (a.isNull && d.isNull) := by
  cases a <;> cases d <;> rfl

omit hev in
theorem compare_same {h : Heap F} {a b : Nat} {v : Obj F} {vs : List Nat} {same : Bool}
    (hu : Reads h a u us) (hv : Reads h b v vs) (hsame : u.same v = some same) :
    compare h a b = same := by
  cases hu with
  | null =>
    cases hv with
    | null => exact Option.some.inj hsame
    | @leaf _ c _ hb hc =>
      cases c <;> cases hc <;> cases hsame <;> simp [compare, cellAt_zero, hb]
    | list hb | closure hb =>
      cases hsame
      simp [compare, cellAt_zero, hb]
  | @leaf _ c _ ha hc =>
    cases hv with
    | null => cases c <;> cases hc <;> cases hsame <;> simp [compare, cellAt_zero, ha]
    | @leaf _ c' _ hb hc' =>
      cases c <;> cases hc <;> cases c' <;> cases hc' <;> cases hsame <;> simp [compare, ha, hb]
    | list hb | closure hb => cases c <;> cases hc <;> cases hsame <;> simp [compare, ha, hb]
  | list ha hx hy =>
    cases hv with
    | null =>
      cases hsame
      simp [compare, cellAt_zero, ha]
    | @leaf _ c _ hb hc => cases c <;> cases hc <;> cases hsame <;> simp [compare, ha, hb]
    | list hb hx' hy' =>
      have hnull : ∀ {b t cs}, Reads h b t cs → t.isNull = (b == 0) := by
        intro b t cs hr
        rw [Bool.eq_iff_iff, ← hr.isNull, beq_iff_eq]
      simp only [Obj.same, isNil_list, hnull hx, hnull hy, hnull hx', hnull hy'] at hsame
      split_ifs at hsame with hnil
      obtain rfl := Option.some.inj hsame
      simp only [compare, ha, hb]
      grind
    | closure hb =>
      cases hsame
      simp [compare, ha, hb]
  | closure ha =>
    cases hv with
    | null =>
      cases hsame
      simp [compare, cellAt_zero, ha]
    | @leaf _ c _ hb hc => cases c <;> cases hc <;> cases hsame <;> simp [compare, ha, hb]
    | list hb =>
      cases hsame
      simp [compare, ha, hb]
    | closure => cases hsame

theorem Realizes.eq (hx : eqTree evT t ≠ .error .outOfFuel) (hρ : c.scope = ρ)
    (hr : Reads c.state.heap args t cs) : Ends c (Primitives.eq ev args) (eqTree evT t) := by
  obtain ⟨ds, h0⟩ := hr.ith 0
  refine .get (.ite (by rw [hr.listLength]) (fun _ => .zero) fun hlen => ?_)
  simp only [eqTree, if_neg hlen] at hx
  apply Ends.bind
  · apply Ends.holding
    intro d hext hscope
    exact hev _ (ne_of_bind hx) d _ _ (hscope.trans hρ) (h0.mono hext)
  intro d r u us hgrows heq hu
  refine .ite hu.isNull (fun _ => .zero) fun hu0 => .get ?_
  simp only [heq, ok_bind, if_neg hu0] at hx
  obtain ⟨es, h1⟩ := (hr.mono hgrows.heap).ith 1
  apply Ends.bind
  · apply Ends.holding
    intro d' hext hscope
    exact hev _ (ne_of_bind hx) d' _ _ ((hscope.trans hgrows.scope).trans hρ) (h1.mono hext)
  intro e q v vs hgrows' heq' hv
  refine .ite hv.isNull (fun _ => .zero) fun hv0 => .get ?_
  simp only [heq', ok_bind, if_neg hv0] at hx
  cases hsame : u.same v with
  | none =>
    rw [hsame] at hx
    exact absurd rfl hx
  | some same =>
    rw [compare_same (hu.mono hgrows'.heap) hv hsame]
    exact .ofBool same

/-- The primitives that store nothing and do not give the environment away. -/
theorem Realizes.primitive {p : Primitive}
    (hx : primitiveMeaning evT t ρ.find fuel p ≠ .error .outOfFuel) (hρ : c.scope = ρ)
    (hr : Reads c.state.heap args t cs) (htail : t.IsTail) :
    Ends c (p.run ev fuel args) (primitiveMeaning evT t ρ.find fuel p) := by
  have hcompare : ∀ (intOp : Int → Int → Bool) (floatOp : F → F → Bool),
      numbersTree evT t (compareTree intOp floatOp) ≠ .error .outOfFuel →
      Ends c (Primitives.compareNumbers ev args intOp floatOp)
        (numbersTree evT t (compareTree intOp floatOp)) := by
    intro intOp floatOp hx
    obtain ⟨h0, h1⟩ := hev.operands hx
    exact ends_comparison h0 h1 hρ hr
  have hop : ∀ p ∈ operators, numbersTree evT t (arithmeticTree fuel p) ≠ .error .outOfFuel →
      Ends c (p.run ev fuel args) (numbersTree evT t (arithmeticTree fuel p)) := by
    intro p hp hx
    rw [run_operator hp]
    obtain ⟨h0, h1⟩ := hev.operands hx
    exact ends_operation p h0 h1 hρ hr
  cases p with
  | quote => exact ends_quote hr
  | atom => exact hev.atom hx hρ hr
  | eq => exact hev.eq hx hρ hr
  | car => exact hev.car hx hρ hr
  | cdr => exact hev.cdr hx hρ hr
  | cons => exact hev.cons hx hρ hr
  | cond => exact hev.cond hx hρ hr htail
  | set => exact absurd rfl hx
  | env => exact absurd rfl hx
  | lambda => exact ends_lambda hρ hr
  | «defmacro» => exact .zero
  | equal => exact hcompare (· == ·) CFloat.eq hx
  | gt => exact hcompare (fun x y => decide (y < x)) (fun x y => CFloat.lt y x) hx
  | gte => exact hcompare (fun x y => decide (y ≤ x)) (fun x y => CFloat.le y x) hx
  | lt => exact hcompare (fun x y => decide (x < y)) CFloat.lt hx
  | lte => exact hcompare (fun x y => decide (x ≤ y)) CFloat.le hx
  | add => exact hop .add (by simp [operators]) hx
  | sub => exact hop .sub (by simp [operators]) hx
  | mul => exact hop .mul (by simp [operators]) hx
  | divide => exact hop .divide (by simp [operators]) hx
  | mod => exact hop .mod (by simp [operators]) hx

end primitives

section evaluation
variable [CFloat F]

/-- An application, if the evaluator computes the meaning wherever the names are bound. -/
theorem ends_applyMeaning (hev : ∀ ρ : Scope F, Realizes ρ (eval fuel) (meaning fuel ρ.find))
    (hρ : c.scope = ρ) (ho : Reads c.state.heap o u us) (hr : Reads c.state.heap args t cs)
    (htail : t.IsTail) (hx : applyMeaning (meaning fuel) fuel ρ.find u t ≠ .error .outOfFuel) :
    Ends c (apply (eval fuel) fuel o args) (applyMeaning (meaning fuel) fuel ρ.find u t) := by
  cases u with
  | primitive p =>
    unfold apply
    apply Ends.get
    simp only [ho.leaf_inv (c := .primitive p) rfl]
    exact (hev ρ).primitive hx hρ hr htail
  | closure tp tb tk n =>
    unfold apply
    apply Ends.get
    obtain ⟨p, b, k, _, _, _, hcell, -⟩ := ho.closure_inv
    obtain ⟨-, -, -, ⟨names, hnames, hn⟩, -⟩ := id (c.wf.heap.cells.tree ho)
    have hp := paramTree_iff.1 hnames
    have hnargs : nargs c.state.heap o = n := by simp [nargs, hcell]
    simp only [hcell, applyMeaning, bindTrees, hp, Option.getD_some] at hx ⊢
    refine .ite (by rw [hnargs, hr.listLength]) (fun _ => .zero) fun hmany => ?_
    rw [if_neg hmany] at hx
    have hlen : t.cells.length ≤ names.length := by
      have hcount : paramCountOf names ≤ names.length := by
        unfold paramCountOf
        split_ifs <;> omega
      rw [length_cells (c.wf.heap.cells.tree hr) htail]
      omega
    have hargs := (hev ρ).inTurn hlen (ne_of_bind hx)
    rw [hnargs, hr.listLength]
    by_cases hfew : (t.length : Int) < n
    · simp only [if_pos hfew]
      exact ends_partialApplication hargs hρ ho hnames hr htail
    · simp only [if_neg hfew] at hx ⊢
      have hbind (l : Scope F) : Scope.find (tk.bindings ++ l ++ ρ) =
          Names.bind (tk.bindings ++ l) ρ.find := Scope.find_append _ _
      have hbody := ends_applyBody fuel (fun σ b => meaning fuel σ.find b) hargs hρ ho hnames hr
        htail fun l hl => hev _ tb ?_
      · simpa only [hbind] using hbody
      · rw [hl, ok_bind] at hx
        rwa [hbind]
  | _ => exact ends_notProcedure ho rfl (by simp)

/-- The evaluator computes the meaning of an expression, unless the meaning says nothing. -/
theorem realizes_eval (fuel : Nat) (ρ : Scope F) :
    Realizes ρ (eval fuel) (meaning fuel ρ.find) := by
  induction fuel generalizing ρ with
  | zero => exact fun t hx => absurd rfl hx
  | succ fuel ih =>
    intro t hx
    cases t with
    | atom n => exact endsIn_atom n
    | list a d =>
      rw [meaning] at hx ⊢
      cases hnil : (Obj.list a d).isNil with
      | true => exact endsIn_self rfl fun _ => hnil
      | false =>
        simp only [hnil, Bool.false_eq_true, if_false] at hx ⊢
        intro c o cs hρ hr
        have htail : d.IsTail := (c.wf.heap.cells.tree hr).2.2
        refine endsIn_application hnil (ih ρ a (ne_of_bind hx)) ?_ c o cs hρ hr
        intro e r y u us ys hρ heq hu hy
        rw [heq, ok_bind] at hx
        exact ends_applyMeaning ih hρ hu hy htail hx
    | _ => exact endsIn_self rfl (by simp [Obj.isList])

end evaluation
end realization
end Lisp
