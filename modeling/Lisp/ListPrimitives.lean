import Lisp.ListValues

/-! What the list primitives make of the values of their arguments, in expressions that only add
objects. -/
namespace Lisp
variable {F : Type} {c : Config F} {m : Nat → Eval F Nat} {t u v w te tx ty : Obj F}
  {o r y fuel : Nat} {os cs ys : List Nat} {n : Text} {f : Primitive} {k : Cell F}

section rules

/-- With enough fuel `m` returns an object that reads as `t`, and objects are only added. -/
def Yields (c : Config F) (m : Nat → Eval F Nat) (t : Obj F) : Prop :=
  ∃ r s fuel₀, Extended c s ∧ (∀ fuel, fuel₀ ≤ fuel → Returns (m fuel) c.state r s) ∧
    ∃ cs, Reads s.heap r t cs

namespace Yields

theorem pure (hr : Reads c.state.heap r t cs) : Yields c (fun _ => Pure.pure r) t :=
  ⟨r, c.state, 0, .refl c, fun _ _ => .pure r, cs, hr⟩

theorem zero : Yields c (fun _ => Pure.pure 0) .null := .pure .null

theorem get {g : Nat → Interpreter F → Eval F Nat}
    (hg : ∀ fuel tr, g fuel { c.state with trace := tr } = g fuel c.state)
    (h : Yields c (fun fuel => g fuel c.state) t) :
    Yields c (fun fuel => MonadState.get >>= g fuel) t := by
  obtain ⟨r, s, fuel₀, hext, hret, hr⟩ := h
  refine ⟨r, s, fuel₀, hext, fun fuel hf => .get fun tr => ?_, hr⟩
  rw [hg]
  exact hret fuel hf

theorem bind {g : Nat → Nat → Eval F Nat} (hm : Yields c m v)
    (hg : ∀ (d : Config F) r cs, Extended c d.state → d.top = c.top → Reads d.state.heap r v cs →
      Yields d (fun fuel => g fuel r) t) :
    Yields c (fun fuel => m fuel >>= g fuel) t := by
  obtain ⟨r, s, n, hext, hret, cs, hr⟩ := hm
  obtain ⟨d, rfl, htop, htrans⟩ := hext.config
  obtain ⟨r', s', n', hext', hret', hr'⟩ := hg d r cs hext htop hr
  refine ⟨r', s', max n n', htrans s' hext', fun fuel hf => ?_, hr'⟩
  exact .bind (hret fuel (by omega)) (hret' fuel (by omega))

theorem holding (hm : Yields c m v) : Yields c (fun fuel => Lisp.holding os (m fuel)) v := by
  obtain ⟨r, s, fuel₀, hext, hret, hr⟩ := hm
  exact ⟨r, s, fuel₀, hext, fun fuel hf => (hret fuel hf).holding, hr⟩

theorem notChecked (hm : Yields c m v) : Yields c (fun fuel => Lisp.notChecked (m fuel)) v := by
  obtain ⟨r, s, fuel₀, hext, hret, hr⟩ := hm
  exact ⟨r, s, fuel₀, hext, fun fuel hf => (hret fuel hf).notChecked, hr⟩

theorem allocate (hk : ∀ x ∈ k.parts, x ≤ c.state.heap.length)
    (hc : CellOk c.state.heap c.slots k)
    (ht : ∀ h', Extends c.state.heap h' → ∀ a, cellAt h' a = some k → ∃ cs, Reads h' a t cs) :
    Yields c (fun _ => Lisp.allocate k) t := by
  refine ⟨_, _, 0, .allocate hk hc, fun _ _ => (Simulates.allocate k).returns rfl, ?_⟩
  exact ht _ (extends_alloc _ _) _ (cellAt_alloc _ _)

theorem nil : Yields c (fun _ => Lisp.nil) .nil := by
  refine .allocate (by simp [Cell.parts]) (Or.inl rfl) fun h' _ a ha => ?_
  exact ⟨_, .list ha .null .null⟩

theorem ofBool (b : Bool) :
    Yields c (fun _ => Lisp.ofBool b) (if b then .atom "t".toList else .nil) := by
  cases b with
  | true => exact .allocate (by simp [Cell.parts]) trivial fun h' _ a ha => ⟨_, .leaf ha rfl⟩
  | false => exact .nil

end Yields

/-- The names of the primitives have their first meaning. -/
def Config.Standard (c : Config F) : Prop :=
  ∀ p ∈ primitiveLibrary, lookupTree c.state.heap c.top p.1 = some (.primitive p.2)

theorem Config.Standard.extended {d : Config F} (hc : c.Standard) (hext : Extended c d.state)
    (htop : d.top = c.top) : d.Standard := by
  intro p hp
  rw [htop, hext.allocates.heap.lookupTree c.wf.heap c.wf.env]
  exact hc p hp

variable [CFloat F]

/-- An expression that reads as `te` has the value `v`, which is `NULL` where it fails. -/
def Evaluates (te v : Obj F) : Prop :=
  ∀ (c : Config F) o cs, c.Standard → Reads c.state.heap o te cs →
    Yields c (fun fuel => eval fuel o) v

/-- An application of a primitive to the expressions `args`. -/
theorem evaluates_primitive {args : Obj F} (hp : (n, f) ∈ primitiveLibrary)
    (h : ∀ (c : Config F) y ys, c.Standard → Reads c.state.heap y args ys →
      Yields c (fun fuel => f.run (eval fuel) fuel y) v) : Evaluates (.list (.atom n) args) v := by
  intro c o cs hc ho
  have hn : isTruthName n = false := isTruthName_initLibrary _ (List.mem_append_right _ hp)
  obtain ⟨x, y, _, _, hcell, -, hx, hy⟩ := ho.list_inv
  have hxa : cellAt c.state.heap x = some (.atom n) := hx.leaf_inv rfl
  obtain ⟨p, hpf, hname⟩ := c.returns_primitive hxa hn (hc _ hp)
  obtain ⟨r, s, fuel₀, hext, hret, hr⟩ := h c y _ hc hy
  refine ⟨r, s, fuel₀ + 2, hext, fun fuel hf => ?_, hr⟩
  obtain ⟨j, rfl⟩ : ∃ j, fuel = j + 2 := ⟨fuel - 2, by omega⟩
  have hx0 : x ≠ 0 := Nat.pos_iff_ne_zero.1 (cellAt_le hxa).1
  exact returns_application hcell hx0 (hname j) hpf (hret (j + 1) (by omega))

end rules

section primitives

/-- The cases of the value of an argument that is to be a list. -/
theorem list_argument {d : Config F} (hr : Reads d.state.heap r v cs)
    {g : Nat → Eval F Nat} {f : Obj F → Obj F} (hnot : ∀ u : Obj F, u.isList = false → f u = .null)
    (hg : v.isList = true → Yields d g (f v)) :
    Yields d (fun fuel => if r = 0 then pure 0 else if !isList d.state.heap r then pure 0
      else g fuel) (f v) := by
  simp only [hr.ite_list]
  cases hlist : v.isList with
  | true => exact hg hlist
  | false =>
    rw [hnot v hlist]
    exact .zero

variable [CFloat F]

theorem evaluates_quote (t : Obj F) :
    Evaluates (.list (.atom "quote".toList) (.list t .null)) t := by
  refine evaluates_primitive (f := .quote) (by simp [primitiveLibrary]) fun c y ys _ hy => ?_
  obtain ⟨x, z, _, _, hcell, -, hx, -⟩ := hy.list_inv
  have hlen : listLength c.state.heap y = 1 := hy.listLength
  refine .get (fun _ _ => rfl) ?_
  simp only [hlen, ne_eq, not_true_eq_false, if_false, car_eq hcell]
  exact .pure hx

theorem evaluates_car (he : Evaluates te v) :
    Evaluates (.list (.atom "car".toList) (.list te .null)) v.carValue := by
  refine evaluates_primitive (f := .car) (by simp [primitiveLibrary]) fun c y ys hc hy => ?_
  obtain ⟨x, z, _, _, hcell, -, hx, -⟩ := hy.list_inv
  have hlen : listLength c.state.heap y = 1 := hy.listLength
  refine .get (fun _ _ => rfl) ?_
  simp only [hlen, ne_eq, not_true_eq_false, if_false, car_eq hcell]
  refine .bind (he c x _ hc hx) fun d r cs _ _ hr => .get (fun _ _ => rfl) ?_
  refine list_argument hr (fun u hu => by simp [Obj.carValue, hu]) fun hlist => ?_
  simp only [hr.isNil, Obj.carValue, hlist, Bool.not_true, Bool.false_eq_true, if_false]
  cases hnil : v.isNil with
  | true => simpa only [if_true] using Yields.nil
  | false =>
    obtain ⟨ds, hcar⟩ := hr.car_ith
    simpa only [Bool.false_eq_true, if_false] using Yields.pure hcar

theorem evaluates_cdr (he : Evaluates te v) :
    Evaluates (.list (.atom "cdr".toList) (.list te .null)) v.cdrValue := by
  refine evaluates_primitive (f := .cdr) (by simp [primitiveLibrary]) fun c y ys hc hy => ?_
  obtain ⟨x, z, _, _, hcell, -, hx, -⟩ := hy.list_inv
  have hlen : listLength c.state.heap y = 1 := hy.listLength
  refine .get (fun _ _ => rfl) ?_
  simp only [hlen, ne_eq, not_true_eq_false, if_false, car_eq hcell]
  refine .bind (he c x _ hc hx) fun d r cs _ _ hr => .get (fun _ _ => rfl) ?_
  refine list_argument hr (fun u hu => by simp [Obj.cdrValue, hu]) fun hlist => ?_
  simp only [hr.isNil, Obj.cdrValue, hlist, Bool.not_true, Bool.false_eq_true, if_false]
  cases hnil : v.isNil with
  | true => simpa only [if_true] using Yields.nil
  | false =>
    cases v with
    | list a b =>
      obtain ⟨p, q, _, _, hcell, -, -, hq⟩ := hr.list_inv
      simp only [Bool.false_eq_true, if_false, cdr_eq hcell, Obj.cdrList, hq.isNull]
      by_cases hb : b.isNull = true
      · simpa only [hb, if_true] using Yields.nil
      · simpa only [hb, Bool.false_eq_true, if_false] using Yields.pure hq
    | _ => cases hlist

theorem evaluates_cons (hx : Evaluates tx u) (hy : Evaluates ty v) (hty : ty ≠ .null) :
    Evaluates (.list (.atom "cons".toList) (.list tx (.list ty .null))) (u.consValue v) := by
  refine evaluates_primitive (f := .cons) (by simp [primitiveLibrary]) fun c y ys hc hys => ?_
  have hlen : listLength c.state.heap y = 2 := hys.listLength
  obtain ⟨x, z, _, _, hcell, -, hxr, hz⟩ := hys.list_inv
  obtain ⟨_, hyr⟩ := hys.ith 1
  have hy0 : ith c.state.heap y 1 ≠ 0 := fun h0 => hty (hyr.null_iff.1 h0)
  refine .get (fun _ _ => rfl) ?_
  simp only [hlen, ne_eq, not_true_eq_false, if_false, hy0, car_eq hcell]
  refine .bind (hx c x _ hc hxr).holding fun d p ps hext htop hp => ?_
  by_cases hp0 : p = 0
  · have hu := hp.null_iff.1 hp0
    subst hu
    simp only [hp0, if_true]
    exact .zero
  have hu : u.isNull = false := Bool.eq_false_iff.2 (mt hp.isNull.2 hp0)
  simp only [hp0, if_false]
  refine .bind (hy d _ _ (hc.extended hext htop) (hyr.mono hext.allocates.heap)).holding
    fun e q qs hext' htop' hq => ?_
  have hp' := hp.mono hext'.allocates.heap
  have hget := list_argument (g := fun _ => Lisp.allocate (.list p q)) (f := u.consValue) hq
    (fun w hw => by simp [Obj.consValue, hw]) fun hlist => ?_
  · by_cases hq0 : q = 0
    · simpa only [hq0, if_true] using hget
    · simp only [hq0, if_false] at hget ⊢
      exact .get (fun _ _ => rfl) hget
  · simp only [Obj.consValue, hu, hlist, Bool.not_true, Bool.false_eq_true, if_false]
    refine .allocate ?_ ?_ fun h' hh' a ha => ⟨_, .list ha (hp'.mono hh') (hq.mono hh')⟩
    · simpa [Cell.parts] using ⟨hp'.valid.1, hq.valid.1⟩
    · cases v with
      | list a b =>
        obtain ⟨_, _, _, _, hcell, -⟩ := hq.list_inv
        exact Or.inr ⟨_, _, hcell⟩
      | _ => cases hlist

theorem evaluates_atom (he : Evaluates te v) (hlist : v.isList = true) :
    Evaluates (.list (.atom "atom".toList) (.list te .null))
      (if v.isNil then .atom "t".toList else .nil) := by
  refine evaluates_primitive (f := .atom) (by simp [primitiveLibrary]) fun c y ys hc hy => ?_
  obtain ⟨x, z, _, _, hcell, -, hx, -⟩ := hy.list_inv
  have hlen : listLength c.state.heap y = 1 := hy.listLength
  refine .get (fun _ _ => rfl) ?_
  simp only [hlen, ne_eq, not_true_eq_false, if_false, car_eq hcell]
  refine .bind (he c x _ hc hx).notChecked fun d r cs _ _ hr => .get (fun _ _ => rfl) ?_
  simp only [hr.isList, hlist, if_true, hr.isNil]
  exact .ofBool v.isNil

/-- `cond` goes on with the next clause if the predicate is an empty list, and else with the
expression of this one. -/
theorem cond_clause {body rest : Obj F} (hc : c.Standard) (he : Evaluates te v)
    (hlist : v.isList = true)
    (hr : Reads c.state.heap y (.list (.list te (.list body .null)) rest) ys)
    (hbody : body ≠ .null) : ∃ s fuel₀, Extended c s ∧ ∀ fuel n r u, fuel₀ ≤ fuel →
      Returns (if v.isNil then Primitives.cond (eval fuel) n (cdr c.state.heap y)
        else eval fuel (ith c.state.heap (car c.state.heap y) 1)) s r u →
      Returns (Primitives.cond (eval fuel) (n + 1) y) c.state r u := by
  obtain ⟨p, z, _, _, hcell, -, hp, -⟩ := hr.list_inv
  obtain ⟨x, w, _, _, hpcell, -, hx, hw⟩ := hp.list_inv
  obtain ⟨q, z', _, _, hwcell, -, hq, -⟩ := hw.list_inv
  obtain ⟨a, s, fuel₀, hext, hret, as, ha⟩ := he c x _ hc hx
  refine ⟨s, fuel₀, hext, fun fuel n r u hf hnext => ?_⟩
  have hy0 : y ≠ 0 := Nat.pos_iff_ne_zero.1 (cellAt_le hcell).1
  have hw0 : w ≠ 0 := Nat.pos_iff_ne_zero.1 (cellAt_le hwcell).1
  have hq0 : q ≠ 0 := fun h0 => hbody (hq.null_iff.1 h0)
  have hlen : listLength c.state.heap p = 2 := hp.listLength
  have hnil : isNil c.state.heap p = false := by simp [isNil_eq hpcell, hw0]
  have hheap := hext.allocates.heap
  have hple := (cellAt_le hpcell).2
  have hith : ∀ h', Extends c.state.heap h' → ith h' p 1 = q := by
    intro h' hh
    simp [ith, isList_eq (hh.cellAt hpcell), cdr_eq (hh.cellAt hpcell),
      isList_eq (hh.cellAt hwcell), car_eq (hh.cellAt hwcell)]
  have hcdr : cdr s.heap y = z := cdr_eq (hheap.cellAt hcell)
  unfold Primitives.cond
  refine .get fun tr => ?_
  simp only [hy0, isList_eq hcell, car_eq hcell, isList_eq hpcell, hnil, hlen, car_eq hpcell,
    if_false, Bool.not_true, Bool.false_eq_true, ne_eq, not_true_eq_false]
  have hpred : Returns (notChecked (holding [y, p] (eval fuel x))) c.state a s :=
    .notChecked (hret fuel hf).holding
  refine .bind hpred (.get fun tr' => ?_)
  have hprim : isPrimitive s.heap a = false := by
    cases v with
    | list =>
      obtain ⟨_, _, _, _, hacell, -⟩ := ha.list_inv
      simp [isPrimitive, hacell]
    | _ => cases hlist
  simp only [car_eq hcell, hith _ (.refl _), cdr_eq hcell] at hnext
  simp only [hprim, ha.isNil, Bool.false_eq_true, if_false, hith s.heap hheap, hq0, hcdr]
  cases hv : v.isNil with
  | true => simpa only [hv, Bool.not_true, Bool.false_eq_true, if_false, if_true] using hnext
  | false => simpa only [hv, Bool.not_false, Bool.false_eq_true, if_false, if_true] using hnext

theorem mem_set : ("set".toList, Primitive.set) ∈ primitiveLibrary := by simp [primitiveLibrary]

/-- `set` with a value stores it under the name. -/
theorem evaluates_set (hc : c.Standard) (he : Evaluates te v) (hv : v ≠ .null)
    (hn : isTruthName n = false) (ho : Reads c.state.heap o (setExpression n te) cs) :
    ∃ r, ∃ d : Config F, ∃ fuel₀, r ≠ 0 ∧
      (∀ fuel, fuel₀ ≤ fuel → Returns (eval fuel o) c.state r d.state) ∧
      lookupTree d.state.heap d.top n = some v := by
  obtain ⟨x, y, _, _, hcell, -, hx, hy⟩ := ho.list_inv
  have hxa : cellAt c.state.heap x = some (.atom "set".toList) := hx.leaf_inv rfl
  have hx0 : x ≠ 0 := Nat.pos_iff_ne_zero.1 (cellAt_le hxa).1
  have hlen : listLength c.state.heap y = 2 := hy.listLength
  obtain ⟨q, z, _, _, hyq, -, hq, hz⟩ := hy.list_inv
  obtain ⟨w, zz, _, _, hzw, -, hw, -⟩ := hz.list_inv
  obtain ⟨p, hpf, hname⟩ := c.returns_primitive hxa (by decide) (hc (_, .set) mem_set)
  obtain ⟨a, s, fuel₁, hext, hquoted, as, ha⟩ := evaluates_quote (.atom n) c q _ hc hq
  obtain ⟨e, rfl, htop, -⟩ := hext.config
  have hh := hext.allocates.heap
  obtain ⟨b, s', fuel₂, hext', hvalue, bs, hb⟩ :=
    he e w _ (hc.extended hext htop) (hw.mono hh)
  obtain ⟨d, rfl, htop', -⟩ := hext'.config
  have han : cellAt e.state.heap a = some (.atom n) := ha.leaf_inv rfl
  have hb0 : b ≠ 0 := fun hb0 => hv (hb.null_iff.1 hb0)
  obtain ⟨r, d', hexec, -, hr0, hstored⟩ :=
    Runs.store hb hb0 (hext'.allocates.heap.cellAt han) hn
  refine ⟨r, d', max fuel₁ fuel₂ + 2, hr0, fun fuel hf => ?_, hstored.lookupTree_self⟩
  obtain ⟨j, rfl⟩ : ∃ j, fuel = j + 2 := ⟨fuel - 2, by omega⟩
  refine returns_application hcell hx0 (hname j) hpf (.get fun tr => ?_)
  have h0 : ith c.state.heap y 0 = q := by simp [ith, isList_eq hyq, car_eq hyq]
  have h1 : ith e.state.heap y 1 = w := by
    simp [ith, isList_eq (hh.cellAt hyq), cdr_eq (hh.cellAt hyq), isList_eq (hh.cellAt hzw),
      car_eq (hh.cellAt hzw)]
  simp only [hlen, h0, ne_eq, not_true_eq_false, if_false]
  refine .bind (hquoted (j + 1) (by omega)).holding (.get fun tr' => ?_)
  have hnil : isNil e.state.heap a = false := by simp [isNil, isList, han]
  have hatom : isAtom e.state.heap a = true := by simp [isAtom, han]
  have hT : isT e.state.heap a = false := by simp [isT, hatom, atomName, han, hn]
  simp only [hnil, hatom, hT, h1, Bool.false_eq_true, if_false, Bool.not_true]
  refine .bind (hvalue (j + 1) (by omega)).holding ?_
  rw [if_neg hb0]
  exact (simulates_store a b).returns hexec

end primitives

section expressions
variable [CFloat F]

/-- Expressions of quoted data, the empty list, `cons`, `car` and `cdr`. -/
inductive ListExpr where
  | empty
  | quoted (e : SExpr)
  | cons (x y : ListExpr)
  | car (x : ListExpr)
  | cdr (x : ListExpr)

/-- An application of a name to expressions. -/
theorem toObj_application {w : Text} (hw : (parseAtom w : Obj F × Nat).1 = .atom w)
    (es : List SExpr) :
    ((SExpr.paren (.token w :: es)).toObj : Obj F) = .list (.atom w) (SExpr.elementsToObj es) := by
  rw [SExpr.toObj, SExpr.toObj, hw]

namespace ListExpr

def toSExpr : ListExpr → SExpr
  | empty => .paren []
  | quoted e => .quote e
  | cons x y => .paren [.token "cons".toList, x.toSExpr, y.toSExpr]
  | car x => .paren [.token "car".toList, x.toSExpr]
  | cdr x => .paren [.token "cdr".toList, x.toSExpr]

/-- What the parser makes of the expression. -/
def tree (e : ListExpr) : Obj F := e.toSExpr.toObj

/-- The value of the expression, or `NULL`. -/
def value : ListExpr → Obj F
  | empty => .nil
  | quoted e => e.toObj
  | cons x y => x.value.consValue y.value
  | car x => x.value.carValue
  | cdr x => x.value.cdrValue

theorem tree_ne_null (e : ListExpr) : (e.tree : Obj F) ≠ .null := e.toSExpr.proper.ne_null

theorem tree_cons (x y : ListExpr) : ((cons x y).tree : Obj F) =
    .list (.atom "cons".toList) (.list x.tree (.list y.tree .null)) :=
  toObj_application (parseAtom_word (by decide) (by decide) (by decide)) _

theorem tree_car (x : ListExpr) : ((car x).tree : Obj F) =
    .list (.atom "car".toList) (.list x.tree .null) :=
  toObj_application (parseAtom_word (by decide) (by decide) (by decide)) _

theorem tree_cdr (x : ListExpr) : ((cdr x).tree : Obj F) =
    .list (.atom "cdr".toList) (.list x.tree .null) :=
  toObj_application (parseAtom_word (by decide) (by decide) (by decide)) _

end ListExpr

/-- The empty list evaluates to itself. -/
theorem evaluates_nil : Evaluates (.nil : Obj F) .nil := by
  intro c o cs _ ho
  obtain ⟨x, y, _, _, hcell, -, hx, hy⟩ := ho.list_inv
  obtain rfl := hx.null_iff.2 rfl
  obtain rfl := hy.null_iff.2 rfl
  refine ⟨o, c.state, 1, .refl c, fun fuel hf => ?_, cs, ho⟩
  obtain ⟨j, rfl⟩ : ∃ j, fuel = j + 1 := ⟨fuel - 1, by omega⟩
  refine .eval ?_
  unfold evalStep
  refine .get fun tr => ?_
  simpa [isAtom, isNumber, isFloat, isInt, isPrimitive, isClosure, isNil, isList, Lisp.car,
    Lisp.cdr, hcell] using Returns.pure o

theorem ListExpr.evaluates (e : ListExpr) : Evaluates (e.tree : Obj F) e.value := by
  induction e with
  | empty =>
    rw [tree, toSExpr, SExpr.toObj]
    exact evaluates_nil
  | quoted e =>
    rw [tree, toSExpr, SExpr.toObj]
    exact evaluates_quote e.toObj
  | cons x y ihx ihy =>
    rw [tree_cons]
    exact evaluates_cons ihx ihy y.tree_ne_null
  | car x ih =>
    rw [tree_car]
    exact evaluates_car ih
  | cdr x ih =>
    rw [tree_cdr]
    exact evaluates_cdr ih

/-- The values are those that a quoted expression may have, or lists built from them. -/
theorem ListExpr.proper (e : ListExpr) : (e.value : Obj F) = .null ∨ (e.value : Obj F).Proper := by
  induction e with
  | empty => exact Or.inr .nil
  | quoted e => exact Or.inr e.proper
  | cons x y ihx ihy => exact Obj.proper_consValue ihx ihy
  | car x ih => exact Obj.proper_carValue ih
  | cdr x ih => exact Obj.proper_cdrValue ih

/-- What the primitives and the printer do with the list that `e` has as its value depends on the
elements of the list only. -/
structure SeesElements (F : Type) [CFloat F] (e : ListExpr) : Prop where
  cons : ∀ x : ListExpr, (x.value : Obj F) ≠ .null →
    ((ListExpr.cons x e).value : Obj F).isList = true ∧
    ((ListExpr.cons x e).value : Obj F).elements = x.value :: (e.value : Obj F).elements
  car : (e.car.value : Obj F) = (e.value : Obj F).elements.headD .nil
  cdr : (e.cdr.value : Obj F).isList = true ∧
    (e.cdr.value : Obj F).elements = (e.value : Obj F).elements.tail
  atom : Evaluates (.list (.atom "atom".toList) (.list (e.tree : Obj F) .null))
    (if (e.value : Obj F).elements = [] then .atom "t".toList else .nil)
  cond : ∀ (c : Config F) (y : Nat) (ys : List Nat) (body rest : Obj F), c.Standard →
    Reads c.state.heap y (.list (.list e.tree (.list body .null)) rest) ys → body ≠ .null →
    ∃ s fuel₀, Extended c s ∧ ∀ fuel n r u, fuel₀ ≤ fuel →
      Returns (if (e.value : Obj F).elements = []
        then Primitives.cond (eval fuel) n (Lisp.cdr c.state.heap y)
        else eval fuel (ith c.state.heap (Lisp.car c.state.heap y) 1)) s r u →
      Returns (Primitives.cond (eval fuel) (n + 1) y) c.state r u
  set : ∀ (c : Config F) (o : Nat) (cs : List Nat) (n : Text), c.Standard →
    Reads c.state.heap o (setExpression n e.tree) cs → isTruthName n = false →
    ∃ r, ∃ d : Config F, ∃ fuel₀, r ≠ 0 ∧
      (∀ fuel, fuel₀ ≤ fuel → Returns (eval fuel o) c.state r d.state) ∧
      ∀ key, cellAt d.state.heap key = some (.atom n) →
        (treeOf d.state.heap (lookup d.state.heap key d.state.env)).isList = true ∧
        (treeOf d.state.heap (lookup d.state.heap key d.state.env)).elements =
          (e.value : Obj F).elements
  print : ∀ address : Primitive → Text, ∃ texts,
    List.Forall₂ (fun x text => unparse address x = .ok (some text)) (e.value : Obj F).elements
      texts ∧
    unparse address (e.value : Obj F) = .ok (some (printedList texts))

/-- An expression of quoted data, `cons`, `car` and `cdr` evaluates to its value; if that is a list,
only its elements matter to the primitives and to the printer. -/
theorem listExpr_elements (e : ListExpr) : Evaluates (e.tree : Obj F) e.value ∧
    ((e.value : Obj F).isList = true → SeesElements F e) := by
  refine ⟨e.evaluates, fun hlist => ?_⟩
  have hne : (e.value : Obj F) ≠ .null := by
    intro hnull
    rw [hnull] at hlist
    cases hlist
  have hp := (e.proper (F := F)).resolve_left hne
  have hempty : (e.value : Obj F).elements = [] ↔ (e.value : Obj F).isNil = true := by
    rw [← hp.elements_isEmpty hlist, List.isEmpty_iff]
  constructor
  case cons => exact fun x hx => Obj.elements_consValue hx hlist
  case car => exact hp.carValue_eq hlist
  case cdr => exact hp.elements_cdrValue hlist
  case atom =>
    simp only [hempty]
    exact evaluates_atom e.evaluates hlist
  case cond =>
    intro c y ys body rest hc hr hbody
    simp only [hempty]
    exact cond_clause hc e.evaluates hlist hr hbody
  case set =>
    intro c o cs n hc ho hn
    obtain ⟨r, d, fuel₀, hr, hret, hlookup⟩ := evaluates_set hc e.evaluates hne hn ho
    refine ⟨r, d, fuel₀, hr, hret, fun key hkey => ?_⟩
    rw [d.wf.env.lookup_tree d.wf.heap hlookup hkey]
    exact ⟨hlist, rfl⟩
  case print =>
    intro address
    obtain ⟨texts, htexts⟩ := hp.printed.2 hlist
    exact ⟨texts, htexts.1, htexts.printed hlist⟩

/-- The expression `(cons 'a ())`. -/
def consA : ListExpr := .cons (.quoted (.token ['a'])) .empty

theorem standard_loaded : ∃ c : Config NoFloat, c.state = loaded interpreterInit consA.tree ∧
    c.Standard := by
  obtain ⟨c, hc⟩ := (Session.init (F := NoFloat)).between
  obtain ⟨d, hd⟩ := hc.loaded (t := consA.tree) consA.toSExpr.proper.ok
  have hnames : ∀ p ∈ primitiveLibrary,
      lookupName (loaded (interpreterInit (F := NoFloat)) consA.tree) p.1 =
        some (.primitive p.2) := by
    decide +kernel
  refine ⟨d, hd.state, fun p hp => ?_⟩
  rw [hd.state, ← hd.lookupName, hnames p hp]

theorem listExpr_elements_cons : ∃ c : Config NoFloat,
    c.state = loaded interpreterInit consA.tree ∧
    Yields c (fun fuel => eval fuel (load (interpreterInit (F := NoFloat)).heap consA.tree).1)
      (.list (.atom ['a']) .nil) := by
  obtain ⟨c, hc, hstandard⟩ := standard_loaded
  refine ⟨c, hc, ?_⟩
  have hvalue : (consA.value : Obj NoFloat) = .list (.atom ['a']) .nil := by decide +kernel
  rw [← hvalue]
  exact (listExpr_elements consA).1 c _ _ hstandard (hc ▸ loaded_reads)

end expressions
end Lisp
