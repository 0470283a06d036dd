import Lisp.ClosedCode
import Lisp.Refinement

/-! Evaluations that store nothing end as those of the trees do: with the same value, or with the
same halt. -/
namespace Lisp
open ExceptState
variable {F : Type} {c d e : Config F} {s : Interpreter F} {m m' : Eval F Nat}
  {f : Nat → Eval F Nat} {x x' : Except Halt (Obj F)} {g : Obj F → Except Halt (Obj F)}
  {a o r args fuel : Nat} {t u v : Obj F} {cs os : List Nat} {k : Cell F} {h h' : Heap F}
  {bs : List Binding} {n : Text} {N : Text → Prop} {ρ : Scope F} {S : Nat → Prop}

section growth

/-- `d` comes after `c`, and nothing is stored between them. -/
structure Grows (c d : Config F) : Prop where
  steps : Steps c d
  balanced : Balanced c d
  heap : Extends c.state.heap d.state.heap
  env : d.state.env = c.state.env

theorem Grows.refl (c : Config F) : Grows c c := ⟨.refl c, .refl c, .refl _, rfl⟩

theorem Grows.trans (h₁ : Grows c d) (h₂ : Grows d e) : Grows c e :=
  ⟨h₁.steps.trans h₂.steps, h₁.balanced.trans h₂.balanced, h₁.heap.trans h₂.heap,
    h₂.env.trans h₁.env⟩

theorem Extended.grows (he : Extended c s) : ∃ d : Config F, d.state = s ∧ Grows c d := by
  obtain ⟨d, rfl, hact, hbal, -⟩ := he.reached
  exact ⟨d, rfl, .single hact, hbal, he.allocates.heap, he.env⟩

/-- The bindings of the current environment. -/
def Config.scope (c : Config F) : Scope F := bindingTrees c.state.heap c.top

theorem Extends.bindingTrees (hext : Extends h h') (he : EnvList h S a bs)
    (hr : Reads h a t cs) : bindingTrees h' bs = bindingTrees h bs := by
  rw [← (he.evolves hext.evolves).bindings (hr.mono hext), he.bindings hr]

/-- A longer heap with the same environment has the same scope. -/
theorem scope_eq (hext : Extends c.state.heap d.state.heap) (henv : d.state.env = c.state.env) :
    d.scope = c.scope := by
  obtain ⟨t, cs, hr⟩ := c.wf.heap.readable _ c.wf.env.le
  have htop : d.top = c.top := by
    have hd := d.wf.env
    rw [henv] at hd
    exact hd.unique (c.wf.env.evolves hext.evolves)
  rw [Config.scope, htop, hext.bindingTrees c.wf.env hr]
  rfl

theorem Grows.scope (h : Grows c d) : d.scope = c.scope := scope_eq h.heap h.env

theorem scope_find (c : Config F) : c.scope.find = lookupTree c.state.heap c.top := by
  funext n
  rw [lookupTree_eq]
  rfl

end growth

section rules

/-- `m` ends as `x` says, and stores nothing. -/
def Ends (c : Config F) (m : Eval F Nat) (x : Except Halt (Obj F)) : Prop :=
  wp m (fun r s => ∃ d : Config F, d.state = s ∧ Grows c d ∧
      ∃ t cs, x = .ok t ∧ Reads d.state.heap r t cs)
    (fun e _ => x = .error e) c.state

namespace Ends

theorem pure (hr : Reads c.state.heap r t cs) : Ends c (Pure.pure r) (.ok t) :=
  ⟨c, rfl, .refl c, t, cs, rfl, hr⟩

theorem zero : Ends c (Pure.pure 0) (.ok .null) := .pure .null

theorem throw (e : Halt) : Ends c (MonadExcept.throw e) (.error e) := rfl

theorem get {g : Interpreter F → Eval F Nat} (h : Ends c (g c.state) x) : Ends c (get >>= g) x := h

theorem ite {b b' : Prop} [Decidable b] [Decidable b'] (hb : b ↔ b') (ht : b' → Ends c m x)
    (hf : ¬b' → Ends c m' x') : Ends c (if b then m else m') (if b' then x else x') := by
  by_cases h : b'
  · rw [if_pos (hb.2 h), if_pos h]
    exact ht h
  · rw [if_neg (mt hb.1 h), if_neg h]
    exact hf h

theorem bind (hm : Ends c m x) (hf : ∀ d r t cs, Grows c d → x = .ok t →
    Reads d.state.heap r t cs → Ends d (f r) (g t)) : Ends c (m >>= f) (x >>= g) := by
  refine wp_seq hm ?_ ?_
  · rintro r _ ⟨d, rfl, hgrows, t, cs, rfl, hr⟩
    refine wp_mono (hf d r t cs hgrows rfl hr) ?_ ?_
    · rintro r' _ ⟨e, rfl, hgrows', hend⟩
      exact ⟨e, rfl, hgrows.trans hgrows', hend⟩
    · rintro e _ he
      exact he
  · rintro e _ rfl
    rfl

/-- The trace is no part of the result. -/
theorem record (hm : Ends c m x) {k : Nat → Interpreter F → Interpreter F}
    (hk : ∀ r s, (k r s).heap = s.heap ∧ (k r s).env = s.env ∧ (k r s).allocated = s.allocated ∧
      SameTrace s (k r s) ∧ (k r s).trace.held = s.trace.held) :
    Ends c (do let r ← m; modify (k r); return r) x := by
  refine wp_seq hm ?_ fun _ _ h => h
  rintro r _ ⟨d, rfl, hgrows, t, cs, rfl, hr⟩
  obtain ⟨heap, env, allocated, same, held⟩ := hk r d.state
  have hrecord : Action d (d.record (k r d.state) heap env same.saved) :=
    .record heap env allocated same rfl rfl rfl
  refine ⟨d.record (k r d.state) heap env same.saved, rfl, hgrows.trans ⟨.single hrecord,
    ⟨same.saved, held, rfl, rfl, List.suffix_rfl⟩, ?_, env⟩, t, cs, rfl, ?_⟩
  · rw [Config.record, heap]
    exact .refl _
  · rw [Config.record, heap]
    exact hr

theorem notChecked (hm : Ends c m x) : Ends c (notChecked m) x :=
  hm.record fun _ _ => ⟨rfl, rfl, rfl, ⟨rfl, rfl, rfl⟩, rfl⟩

theorem holding (hm : ∀ d : Config F, Extends c.state.heap d.state.heap → d.scope = c.scope →
    Ends d m x) : Ends c (holding os m) x := by
  have hrecord : Action c (c.record { c.state with
      trace.held := os ++ c.state.trace.held } rfl rfl rfl) :=
    .record rfl rfl rfl ⟨rfl, rfl, rfl⟩ rfl rfl rfl
  have hend := hm (c.record { c.state with
    trace.held := os ++ c.state.trace.held } rfl rfl rfl) (.refl _) rfl
  refine wp_modify_bind.2 (wp_seq hend ?_ fun _ _ h => h)
  rintro r _ ⟨d, rfl, hgrows, t, cs, rfl, hr⟩
  have hdrop : Action d (d.record { d.state with
      trace.held := d.state.trace.held.drop os.length } rfl rfl rfl) :=
    .record rfl rfl rfl ⟨rfl, rfl, rfl⟩ rfl rfl rfl
  have hheld : d.state.trace.held = os ++ c.state.trace.held := hgrows.balanced.held
  refine ⟨d.record { d.state with trace.held := d.state.trace.held.drop os.length } rfl rfl rfl,
    rfl, ⟨((Steps.single hrecord).trans hgrows.steps).tail hdrop, ⟨hgrows.balanced.saved, ?_,
      hgrows.balanced.below, hgrows.balanced.pending, hgrows.balanced.top⟩, hgrows.heap,
      hgrows.env⟩, t, cs, rfl, hr⟩
  simp only [Config.record]
  rw [hheld, List.drop_left]

/-- A computation without evaluations. -/
theorem extended (hm : exec m c.state = (.ok r, s)) (he : Extended c s)
    (hr : Reads s.heap r t cs) : Ends c m (.ok t) := by
  obtain ⟨d, rfl, hgrows⟩ := he.grows
  exact (wp_ok hm).2 ⟨d, rfl, hgrows, t, cs, rfl, hr⟩

theorem allocate (hk : ∀ x ∈ k.parts, x ≤ c.state.heap.length)
    (hc : CellOk c.state.heap c.slots k)
    (ht : ∀ h', Extends c.state.heap h' → ∀ a, cellAt h' a = some k → ∃ cs, Reads h' a t cs) :
    Ends c (Lisp.allocate k) (.ok t) := by
  obtain ⟨cs, hr⟩ := ht _ (extends_alloc _ _) _ (cellAt_alloc _ _)
  exact .extended rfl (.allocate hk hc) hr

theorem nil : Ends c Lisp.nil (.ok .nil) := by
  refine .allocate (by simp [Cell.parts]) (Or.inl rfl) fun h' _ a ha => ?_
  exact ⟨_, .list ha .null .null⟩

theorem ofBool (b : Bool) : Ends c (Lisp.ofBool b) (.ok (.ofBool b)) := by
  cases b with
  | true => exact .allocate (by simp [Cell.parts]) trivial fun h' _ a ha => ⟨_, .leaf ha rfl⟩
  | false => exact .nil

end Ends

/-- Wherever the bindings are `ρ`, `ev` evaluates the expression `t` as `x` says. -/
def EndsIn (ρ : Scope F) (ev : Nat → Eval F Nat) (t : Obj F) (x : Except Halt (Obj F)) : Prop :=
  ∀ (c : Config F) o cs, c.scope = ρ → Reads c.state.heap o t cs → Ends c (ev o) x

/-- `ev` evaluates closed code in the scope `ρ` as `evT` does. -/
def Follows (ρ : Scope F) (N : Text → Prop) (ev : Nat → Eval F Nat)
    (evT : Obj F → Except Halt (Obj F)) : Prop :=
  ∀ (c : Config F) o t cs, c.scope = ρ → Reads c.state.heap o t cs → GoodCode N t →
    Ends c (ev o) (evT t)

theorem Follows.part {evT : Obj F → Except Halt (Obj F)} {ev : Nat → Eval F Nat}
    (hev : Follows ρ N ev evT) (ht : GoodCode N t) (i : Nat) :
    EndsIn ρ ev (t.ith i) (evT (t.ith i)) :=
  fun c o cs hρ hr => hev c o _ cs hρ hr (ht.ith i)

end rules

section tests

theorem Reads.isAtom (hr : Reads h a t cs) : isAtom h a = t.isAtom := by
  cases hr with
  | null => rfl
  | @leaf _ c _ ha ht => cases c <;> simp [Cell.leaf?] at ht <;> subst ht <;>
      simp [Lisp.isAtom, ha, Obj.isAtom]
  | list ha _ _ => simp [Lisp.isAtom, ha, Obj.isAtom]
  | closure ha _ _ _ => simp [Lisp.isAtom, ha, Obj.isAtom]

theorem Reads.isPrimitive (hr : Reads h a t cs) : isPrimitive h a = t.isPrimitive := by
  cases hr with
  | null => rfl
  | @leaf _ c _ ha ht => cases c <;> simp [Cell.leaf?] at ht <;> subst ht <;>
      simp [Lisp.isPrimitive, ha, Obj.isPrimitive]
  | list ha _ _ => simp [Lisp.isPrimitive, ha, Obj.isPrimitive]
  | closure ha _ _ _ => simp [Lisp.isPrimitive, ha, Obj.isPrimitive]

theorem Reads.isNumber (hr : Reads h a t cs) : isNumber h a = t.isNumber := by
  cases hr with
  | null => rfl
  | @leaf _ c _ ha ht => cases c <;> simp [Cell.leaf?] at ht <;> subst ht <;>
      simp [Lisp.isNumber, isInt, isFloat, ha, Obj.isNumber]
  | list ha _ _ => simp [Lisp.isNumber, isInt, isFloat, ha, Obj.isNumber]
  | closure ha _ _ _ => simp [Lisp.isNumber, isInt, isFloat, ha, Obj.isNumber]

end tests

section primitives
variable {ev : Nat → Eval F Nat} {evT : Obj F → Except Halt (Obj F)}

theorem ends_quote (hr : Reads c.state.heap args t cs) :
    Ends c (Primitives.quote args) (.ok (quoteTree t)) := by
  have hlen := hr.listLength
  obtain ⟨ds, hcar⟩ := hr.car_ith
  apply Ends.get
  by_cases h : t.length ≠ 1
  · rw [hlen, quoteTree, if_pos h, if_pos h]
    exact .zero
  · rw [hlen, quoteTree, if_neg h, if_neg h]
    exact .pure hcar

/-- The argument is evaluated if it is the only one. -/
theorem ends_atomOf {x : Except Halt (Obj F)} (hx : t.length = 1 → EndsIn ρ ev (t.ith 0) x)
    (hρ : c.scope = ρ) (hr : Reads c.state.heap args t cs) : Ends c (Primitives.atom ev args)
      (if t.length ≠ 1 then .ok .null else do
        let v ← x
        return .ofBool (if v.isList then v.isNil else v.isAtom || v.isNumber)) := by
  obtain ⟨ds, hcar⟩ := hr.car_ith
  refine .get (.ite (by rw [hr.listLength]) (fun _ => .zero) fun hlen => ?_)
  apply Ends.bind (Ends.notChecked (hx (not_not.1 hlen) c _ _ hρ hcar))
  intro d r v vs _ _ hv
  apply Ends.get
  rw [hv.isList, hv.isNil, hv.isAtom, hv.isNumber]
  exact .ofBool _

theorem ends_atom (hev : Follows ρ N ev evT) (hρ : c.scope = ρ)
    (hr : Reads c.state.heap args t cs) (ht : GoodCode N t) :
    Ends c (Primitives.atom ev args) (atomTree evT t) :=
  ends_atomOf (fun _ => hev.part ht 0) hρ hr

/-- The cases of the value of an argument that is to be a list. -/
theorem ends_list (hv : Reads c.state.heap r v cs) {f : Obj F → Obj F}
    (hnot : ∀ u : Obj F, u.isList = false → f u = .null)
    (hm : v.isList = true → Ends c m (.ok (f v))) :
    Ends c (if r = 0 then Pure.pure 0 else if !isList c.state.heap r then Pure.pure 0 else m)
      (.ok (f v)) := by
  rw [hv.ite_list]
  cases hlist : v.isList with
  | true => exact hm hlist
  | false =>
    rw [hnot v hlist]
    exact .zero

theorem ends_carOf {x : Except Halt (Obj F)} (hx : t.length = 1 → EndsIn ρ ev (t.ith 0) x)
    (hρ : c.scope = ρ) (hr : Reads c.state.heap args t cs) : Ends c (Primitives.car ev args)
      (if t.length ≠ 1 then .ok .null else do
        let v ← x
        return v.carValue) := by
  obtain ⟨ds, hcar⟩ := hr.car_ith
  refine .get (.ite (by rw [hr.listLength]) (fun _ => .zero) fun hlen => ?_)
  apply Ends.bind (hx (not_not.1 hlen) c _ _ hρ hcar)
  intro d r v vs _ _ hv
  apply Ends.get
  refine ends_list hv (fun u hu => by simp [Obj.carValue, hu]) fun hlist => ?_
  simp only [hv.isNil, Obj.carValue, hlist, Bool.not_true, Bool.false_eq_true, if_false]
  cases hnil : v.isNil with
  | true => simpa only [if_true] using Ends.nil
  | false =>
    obtain ⟨ds, hcar⟩ := hv.car_ith
    simpa only [Bool.false_eq_true, if_false] using Ends.pure hcar

theorem ends_car (hev : Follows ρ N ev evT) (hρ : c.scope = ρ)
    (hr : Reads c.state.heap args t cs) (ht : GoodCode N t) :
    Ends c (Primitives.car ev args) (carTree evT t) :=
  ends_carOf (fun _ => hev.part ht 0) hρ hr

theorem ends_cdrOf {x : Except Halt (Obj F)} (hx : t.length = 1 → EndsIn ρ ev (t.ith 0) x)
    (hρ : c.scope = ρ) (hr : Reads c.state.heap args t cs) : Ends c (Primitives.cdr ev args)
      (if t.length ≠ 1 then .ok .null else do
        let v ← x
        return v.cdrValue) := by
  obtain ⟨ds, hcar⟩ := hr.car_ith
  refine .get (.ite (by rw [hr.listLength]) (fun _ => .zero) fun hlen => ?_)
  apply Ends.bind (hx (not_not.1 hlen) c _ _ hρ hcar)
  intro d r v vs _ _ hv
  apply Ends.get
  refine ends_list hv (fun u hu => by simp [Obj.cdrValue, hu]) fun hlist => ?_
  simp only [hv.isNil, Obj.cdrValue, hlist, Bool.not_true, Bool.false_eq_true, if_false]
  cases hnil : v.isNil with
  | true => simpa only [if_true] using Ends.nil
  | false =>
    cases v with
    | list a b =>
      obtain ⟨p, q, _, _, hcell, -, -, hq⟩ := hv.list_inv
      simp only [Bool.false_eq_true, if_false, cdr_eq hcell, Obj.cdrList, hq.isNull]
      by_cases hb : b.isNull = true
      · simpa only [hb, if_true] using Ends.nil
      · simpa only [hb, Bool.false_eq_true, if_false] using Ends.pure hq
    | _ => cases hlist

theorem ends_cdr (hev : Follows ρ N ev evT) (hρ : c.scope = ρ)
    (hr : Reads c.state.heap args t cs) (ht : GoodCode N t) :
    Ends c (Primitives.cdr ev args) (cdrTree evT t) :=
  ends_cdrOf (fun _ => hev.part ht 0) hρ hr

theorem ends_consOf {x y : Except Halt (Obj F)}
    (hx : t.length = 2 → (t.ith 1).isNull = false → EndsIn ρ ev (t.ith 0) x)
    (hy : t.length = 2 → (t.ith 1).isNull = false → ∀ u, x = .ok u → u.isNull = false →
      EndsIn ρ ev (t.ith 1) y) (hρ : c.scope = ρ) (hr : Reads c.state.heap args t cs) :
    Ends c (Primitives.cons ev args)
      (if t.length ≠ 2 then .ok .null
      else if (t.ith 1).isNull then .ok .null else do
        let u ← x
        if u.isNull then return .null else
        let v ← y
        return u.consValue v) := by
  obtain ⟨ds, hcar⟩ := hr.car_ith
  obtain ⟨es, hith⟩ := hr.ith 1
  refine .get (.ite (by rw [hr.listLength]) (fun _ => .zero) fun hlen =>
    .ite hith.isNull (fun _ => .zero) fun hnull => ?_)
  have hlen := not_not.1 hlen
  have hnull := eq_false_of_ne_true hnull
  apply Ends.bind
  · apply Ends.holding
    intro d hext hscope
    exact hx hlen hnull d _ _ (hscope.trans hρ) (hcar.mono hext)
  intro d p u us hgrows heq hu
  refine .ite hu.isNull (fun _ => .zero) fun hu0 => ?_
  apply Ends.bind
  · apply Ends.holding
    intro d' hext hscope
    exact hy hlen hnull u heq (eq_false_of_ne_true hu0) d' _ _
      ((hscope.trans hgrows.scope).trans hρ) ((hith.mono hgrows.heap).mono hext)
  intro e q v vs hgrows' _ hv
  have hu' := hu.mono hgrows'.heap
  have hnot : ∀ w : Obj F, w.isList = false → u.consValue w = .null := by
    intro w hw
    simp [Obj.consValue, hw]
  have hget := ends_list (m := Lisp.allocate (.list p q)) hv hnot fun hlist => ?_
  · show Ends e _ (.ok (u.consValue v))
    by_cases hq0 : q = 0
    · simpa only [hq0, if_true] using hget
    · simp only [hq0, if_false] at hget ⊢
      exact .get hget
  · have hcons : u.consValue v = .list u v := by
      simp only [Obj.consValue, hlist, hu0, Bool.not_true, Bool.false_eq_true, if_false]
    rw [hcons]
    refine .allocate ?_ ?_ fun h' hh' a ha => ⟨_, .list ha (hu'.mono hh') (hv.mono hh')⟩
    · simpa [Cell.parts] using ⟨hu'.valid.1, hv.valid.1⟩
    · cases v with
      | list a b =>
        obtain ⟨_, _, _, _, hcell, -⟩ := hv.list_inv
        exact Or.inr ⟨_, _, hcell⟩
      | _ => cases hlist

theorem ends_cons (hev : Follows ρ N ev evT) (hρ : c.scope = ρ)
    (hr : Reads c.state.heap args t cs) (ht : GoodCode N t) :
    Ends c (Primitives.cons ev args) (consTree evT t) :=
  ends_consOf (fun _ _ => hev.part ht 0) (fun _ _ _ _ _ => hev.part ht 1) hρ hr

/-- One clause of `cond`: either its expression is evaluated, or the other clauses are tried. -/
theorem ends_clause {pair rest : Obj F} {x y z : Except Halt (Obj F)}
    (hx : pair.length = 2 → EndsIn ρ ev (pair.ith 0) x)
    (hy : ∀ p, x = .ok p → p.isPrimitive = false → p.isNil = false → (pair.ith 1).isNull = false →
      EndsIn ρ ev (pair.ith 1) y)
    (hz : ∀ p, x = .ok p → p.isPrimitive = false → p.isNil = true →
      EndsIn ρ (Primitives.cond ev fuel) rest z) :
    EndsIn ρ (Primitives.cond ev (fuel + 1)) (.list pair rest)
      (if !pair.isList then .ok .null
      else if pair.isNil then .ok .null
      else if pair.length ≠ 2 then .ok .null else do
      let p ← x
      if p.isPrimitive then return .null else
      if !p.isNil then if (pair.ith 1).isNull then return .null else y
      else z) := by
  intro c args cs hρ hr
  obtain ⟨p, q, _, _, hcell, -, hp, hq⟩ := hr.list_inv
  have h0 : args ≠ 0 := Nat.pos_iff_ne_zero.1 (cellAt_le hcell).1
  obtain ⟨ds, hcar⟩ := hp.car_ith
  unfold Primitives.cond
  apply Ends.get
  simp only [h0, if_false, isList_eq hcell, Bool.not_true, Bool.false_eq_true, car_eq hcell]
  refine .ite (by rw [hp.isList]) (fun _ => .zero) fun _ => .ite (by rw [hp.isNil])
    (fun _ => .zero) fun _ => .ite (by rw [hp.listLength]) (fun _ => .zero) fun hlen => ?_
  apply Ends.bind
  · apply Ends.notChecked
    apply Ends.holding
    intro d hext hscope
    exact hx (not_not.1 hlen) d _ _ (hscope.trans hρ) (hcar.mono hext)
  intro d r v vs hgrows heq hv
  have hρ' := hgrows.scope.trans hρ
  obtain ⟨es, hith⟩ := (hp.mono hgrows.heap).ith 1
  have hcdr : cdr d.state.heap args = q := cdr_eq (hgrows.heap.cellAt hcell)
  refine .get (.ite (by rw [hv.isPrimitive]) (fun _ => .zero) fun hprimitive =>
    .ite (by rw [hv.isNil]) (fun hnil => .ite hith.isNull (fun _ => .zero) fun hnull => ?_)
      fun hnil => ?_)
  · exact hy v heq (eq_false_of_ne_true hprimitive) (by simpa using hnil)
      (eq_false_of_ne_true hnull) d _ _ hρ' hith
  · rw [hcdr]
    exact hz v heq (eq_false_of_ne_true hprimitive) (by simpa using hnil) d _ _ hρ'
      (hq.mono hgrows.heap)

theorem ends_cond (hev : Follows ρ N ev evT) (hρ : c.scope = ρ)
    (hr : Reads c.state.heap args t cs) (ht : GoodCode N t) (htail : t.IsTail) :
    Ends c (Primitives.cond ev fuel args) (condTree evT fuel t) := by
  induction fuel generalizing c args t cs with
  | zero => exact .throw _
  | succ fuel ih =>
    cases t with
    | null =>
      obtain rfl := hr.null_iff.2 rfl
      exact .get Ends.nil
    | list pair rest =>
      obtain ⟨hpair, hrest⟩ := ht.list
      have hz : EndsIn ρ (Primitives.cond ev fuel) rest (condTree evT fuel rest) :=
        fun d o ds hρ hr => ih hρ hr hrest ht.2.2.2
      exact ends_clause (fun _ => hev.part hpair 0) (fun _ _ _ _ _ => hev.part hpair 1)
        (fun _ _ _ _ => hz) c args cs hρ hr
    | _ => exact htail.elim

/-- What an operation on two numbers ends as, if its `n` arguments end as `x` and `y`. -/
def onNumbers (n : Nat) (x y : Except Halt (Obj F))
    (op : Obj F → Obj F → Except Halt (Obj F)) : Except Halt (Obj F) :=
  if n ≠ 2 then .ok .null else do
  let u ← x
  if !u.isNumber then return .null else
  let v ← y
  if !v.isNumber then return .null else op u v

/-- Two arguments that are to be numbers, and then the rest `k` of the operation. -/
theorem ends_numbers {k : Interpreter F → Nat → Nat → Eval F Nat}
    {op : Obj F → Obj F → Except Halt (Obj F)} {x y : Except Halt (Obj F)}
    (hk : ∀ (d : Config F) r q u v us vs, Reads d.state.heap r u us → Reads d.state.heap q v vs →
      u.isNumber = true → v.isNumber = true → Ends d (k d.state r q) (op u v))
    (hx : t.length = 2 → EndsIn ρ ev (t.ith 0) x)
    (hy : t.length = 2 → ∀ u, x = .ok u → u.isNumber = true → EndsIn ρ ev (t.ith 1) y)
    (hρ : c.scope = ρ) (hr : Reads c.state.heap args t cs) :
    Ends c (do
      let s ← get
      if listLength s.heap args ≠ 2 then return 0 else
      let first ← Lisp.holding [args] (ev (ith s.heap args 0))
      let s ← get
      if first = 0 then return 0 else
      if !isNumber s.heap first then return 0 else
      let second ← Lisp.holding [first] (ev (ith s.heap args 1))
      let s ← get
      if second = 0 then return 0 else
      if !isNumber s.heap second then return 0 else
      k s first second) (onNumbers t.length x y op) := by
  have hnumber : ∀ {d : Config F} {r : Nat} {u : Obj F} {us : List Nat} {m : Eval F Nat}
      {x : Except Halt (Obj F)}, Reads d.state.heap r u us → (u.isNumber = true → Ends d m x) →
      Ends d (if r = 0 then Pure.pure 0 else if !isNumber d.state.heap r then Pure.pure 0 else m)
        (if !u.isNumber then .ok .null else x) := by
    intro d r u us m x hu hm
    rw [hu.isNumber]
    cases hnum : u.isNumber with
    | true =>
      have hr0 : r ≠ 0 := by
        rintro rfl
        rw [hu.null_iff.1 rfl] at hnum
        cases hnum
      simpa only [hr0, if_false, Bool.not_true, Bool.false_eq_true] using hm hnum
    | false => simpa only [Bool.not_false, if_true, ite_self] using Ends.zero
  obtain ⟨ds, h0⟩ := hr.ith 0
  refine .get (.ite (by rw [hr.listLength]) (fun _ => .zero) fun hlen => ?_)
  have hlen := not_not.1 hlen
  apply Ends.bind
  · apply Ends.holding
    intro d hext hscope
    exact hx hlen d _ _ (hscope.trans hρ) (h0.mono hext)
  intro d r u us hgrows heq hu
  refine .get (hnumber hu fun hnumu => ?_)
  obtain ⟨es, h1⟩ := (hr.mono hgrows.heap).ith 1
  apply Ends.bind
  · apply Ends.holding
    intro d' hext hscope
    exact hy hlen u heq hnumu d' _ _ ((hscope.trans hgrows.scope).trans hρ) (h1.mono hext)
  intro e q v vs hgrows' _ hv
  exact .get (hnumber hv fun hnumv => hk e r q u v us vs (hu.mono hgrows'.heap) hv hnumu hnumv)

variable [CFloat F]

variable {x y : Except Halt (Obj F)}

/-- The comparison of two numbers. -/
theorem ends_compared (intOp : Int → Int → Bool) (floatOp : F → F → Bool) (d : Config F) (r q : Nat)
    (u v : Obj F) (us vs : List Nat) (hu : Reads d.state.heap r u us)
    (hv : Reads d.state.heap q v vs) (hnumu : u.isNumber = true) (hnumv : v.isNumber = true) :
    Ends d (Lisp.ofBool (if isInt d.state.heap r && isInt d.state.heap q
      then intOp (getInt d.state.heap r) (getInt d.state.heap q)
      else floatOp (getFloat d.state.heap r) (getFloat d.state.heap q)))
      (compareTree intOp floatOp u v) := by
  cases u with
  | int a =>
    have hr := hu.leaf_inv (c := .int a) rfl
    cases v with
    | int b =>
      have hq := hv.leaf_inv (c := .int b) rfl
      simp only [isInt, getInt, hr, hq, Bool.and_self, if_true]
      exact .ofBool _
    | float y =>
      have hq := hv.leaf_inv (c := .float y) rfl
      simp only [isInt, getFloat, hr, hq, Bool.and_false, Bool.false_eq_true, if_false]
      exact .ofBool _
    | _ => cases hnumv
  | float x =>
    have hr := hu.leaf_inv (c := .float x) rfl
    cases v with
    | int b =>
      have hq := hv.leaf_inv (c := .int b) rfl
      simp only [isInt, getFloat, hr, hq, Bool.false_and, Bool.false_eq_true, if_false]
      exact .ofBool _
    | float y =>
      have hq := hv.leaf_inv (c := .float y) rfl
      simp only [isInt, getFloat, hr, hq, Bool.false_and, Bool.false_eq_true, if_false]
      exact .ofBool _
    | _ => cases hnumv
  | _ => cases hnumu

theorem ends_comparison {intOp : Int → Int → Bool} {floatOp : F → F → Bool}
    (hx : t.length = 2 → EndsIn ρ ev (t.ith 0) x)
    (hy : t.length = 2 → ∀ u, x = .ok u → u.isNumber = true → EndsIn ρ ev (t.ith 1) y)
    (hρ : c.scope = ρ) (hr : Reads c.state.heap args t cs) :
    Ends c (Primitives.compareNumbers ev args intOp floatOp)
      (onNumbers t.length x y (compareTree intOp floatOp)) :=
  ends_numbers (ends_compared intOp floatOp) hx hy hρ hr

theorem ends_compareNumbers {intOp : Int → Int → Bool} {floatOp : F → F → Bool}
    (hev : Follows ρ N ev evT) (hρ : c.scope = ρ) (hr : Reads c.state.heap args t cs)
    (ht : GoodCode N t) : Ends c (Primitives.compareNumbers ev args intOp floatOp)
      (numbersTree evT t (compareTree intOp floatOp)) :=
  ends_comparison (fun _ => hev.part ht 0) (fun _ _ _ _ => hev.part ht 1) hρ hr

/-- An operation on floats does not depend on the state, and leaves it as it is. -/
theorem exec_floatOp (fuel : Nat) (p : Primitive) (x y : F) (s : Interpreter F) :
    exec (floatOp fuel p x y) s = (floatTree fuel p x y, s) := by
  have hmod : ∀ x y : F, ∃ r, ∀ s : Interpreter F, exec (modFloatsFrom fuel x y) s = (r, s) := by
    intro x y
    induction fuel generalizing x with
    | zero => exact ⟨_, fun _ => rfl⟩
    | succ fuel ih =>
      unfold modFloatsFrom
      by_cases hle : CFloat.le y x = true
      · simpa only [hle, if_true] using ih (CFloat.sub x y)
      · exact ⟨.ok x, fun s => by simp [hle]⟩
  have hop : ∃ r, ∀ s : Interpreter F, exec (floatOp fuel p x y) s = (r, s) := by
    cases p with
    | mod => exact hmod _ _
    | _ => exact ⟨_, fun _ => rfl⟩
  obtain ⟨r, hr⟩ := hop
  rw [floatTree, hr, hr]

/-- The operation on two numbers. -/
theorem ends_operated (fuel : Nat) (p : Primitive) (d : Config F) (r q : Nat) (u v : Obj F)
    (us vs : List Nat) (hu : Reads d.state.heap r u us) (hv : Reads d.state.heap q v vs)
    (hnumu : u.isNumber = true) (hnumv : v.isNumber = true) :
    Ends d (if isFloat d.state.heap r || isFloat d.state.heap q then do
        let value ← floatOp fuel p (getFloat d.state.heap r) (getFloat d.state.heap q)
        Lisp.allocate (.int (CFloat.toInt value))
      else do
        let value ← orUndefined (intOp p (getInt d.state.heap r) (getInt d.state.heap q))
        Lisp.allocate (.int value)) (arithmeticTree fuel p u v) := by
  have hint : ∀ z : Int, Ends d (Lisp.allocate (.int z)) (.ok (.int z)) := by
    intro z
    exact .allocate (by simp [Cell.parts]) trivial fun h' _ a ha => ⟨_, .leaf ha rfl⟩
  have hfloat : ∀ x y : F, Ends d (do
      let value ← floatOp fuel p x y
      Lisp.allocate (.int (CFloat.toInt value))) (do
      let z ← floatTree fuel p x y
      return .int (CFloat.toInt z)) := by
    intro x y
    unfold Ends
    rw [wp_bind]
    cases hz : floatTree fuel p x y with
    | error e => exact (wp_error (by rw [exec_floatOp, hz])).2 rfl
    | ok z => exact (wp_ok (by rw [exec_floatOp, hz])).2 (hint _)
  cases u with
  | int a =>
    have hr := hu.leaf_inv (c := .int a) rfl
    cases v with
    | int b =>
      have hq := hv.leaf_inv (c := .int b) rfl
      simp only [isFloat, getInt, hr, hq, Bool.or_self, Bool.false_eq_true, if_false,
        arithmeticTree]
      cases intOp p a b with
      | none => exact .throw _
      | some z => exact hint z
    | float y =>
      have hq := hv.leaf_inv (c := .float y) rfl
      simp only [isFloat, getFloat, hr, hq, Bool.or_true, if_true]
      exact hfloat _ _
    | _ => cases hnumv
  | float x =>
    have hr := hu.leaf_inv (c := .float x) rfl
    cases v with
    | int b =>
      have hq := hv.leaf_inv (c := .int b) rfl
      simp only [isFloat, getFloat, hr, hq, Bool.true_or, if_true]
      exact hfloat _ _
    | float y =>
      have hq := hv.leaf_inv (c := .float y) rfl
      simp only [isFloat, getFloat, hr, hq, Bool.true_or, if_true]
      exact hfloat _ _
    | _ => cases hnumv
  | _ => cases hnumu

theorem ends_operation (p : Primitive) (hx : t.length = 2 → EndsIn ρ ev (t.ith 0) x)
    (hy : t.length = 2 → ∀ u, x = .ok u → u.isNumber = true → EndsIn ρ ev (t.ith 1) y)
    (hρ : c.scope = ρ) (hr : Reads c.state.heap args t cs) :
    Ends c (Primitives.applyArithmetic ev args (intOp p) (floatOp fuel p))
      (onNumbers t.length x y (arithmeticTree fuel p)) :=
  ends_numbers (ends_operated fuel p) hx hy hρ hr

theorem ends_arithmetic (p : Primitive) (hev : Follows ρ N ev evT) (hρ : c.scope = ρ)
    (hr : Reads c.state.heap args t cs) (ht : GoodCode N t) :
    Ends c (Primitives.applyArithmetic ev args (intOp p) (floatOp fuel p))
      (numbersTree evT t (arithmeticTree fuel p)) :=
  ends_operation p (fun _ => hev.part ht 0) (fun _ _ _ _ => hev.part ht 1) hρ hr

theorem ends_lambda (hρ : c.scope = ρ) (hr : Reads c.state.heap args t cs) :
    Ends c (Primitives.lambda args) (.ok (Obj.lambda ρ.find t)) := by
  obtain ⟨r, s, hexec, hext, ds, hlambda⟩ := lambda_ok c hr.valid.1
  rw [hr.treeOf, ← scope_find, hρ] at hlambda
  exact .extended hexec hext hlambda

/-- The primitives other than `set`, `env` and `eq`. -/
theorem ends_primitive {p : Primitive} (hp : p ≠ .set ∧ p ≠ .env ∧ p ≠ .eq)
    (hev : Follows ρ N ev evT) (hρ : c.scope = ρ) (hr : Reads c.state.heap args t cs)
    (ht : GoodCode N t) (htail : t.IsTail) :
    Ends c (p.run ev fuel args) (primitiveTree evT t ρ.find fuel p) := by
  have hcompare : ∀ (intOp : Int → Int → Bool) (floatOp : F → F → Bool),
      Ends c (Primitives.compareNumbers ev args intOp floatOp)
        (numbersTree evT t (compareTree intOp floatOp)) := by
    intro intOp floatOp
    exact ends_compareNumbers hev hρ hr ht
  have hop : ∀ p ∈ operators, Ends c (p.run ev fuel args)
      (numbersTree evT t (arithmeticTree fuel p)) := by
    intro p hp
    rw [run_operator hp]
    exact ends_arithmetic p hev hρ hr ht
  cases p with
  | quote => exact ends_quote hr
  | atom => exact ends_atom hev hρ hr ht
  | car => exact ends_car hev hρ hr ht
  | cdr => exact ends_cdr hev hρ hr ht
  | cons => exact ends_cons hev hρ hr ht
  | cond => exact ends_cond hev hρ hr ht htail
  | lambda => exact ends_lambda hρ hr
  | equal =>
    rw [Primitive.run, Primitives.equal, primitiveTree]
    exact hcompare _ _
  | gt =>
    rw [Primitive.run, Primitives.gt, primitiveTree]
    exact hcompare _ _
  | gte =>
    rw [Primitive.run, Primitives.gte, primitiveTree]
    exact hcompare _ _
  | lt =>
    rw [Primitive.run, Primitives.lt, primitiveTree]
    exact hcompare _ _
  | lte =>
    rw [Primitive.run, Primitives.lte, primitiveTree]
    exact hcompare _ _
  | add => exact hop .add (by simp [operators])
  | sub => exact hop .sub (by simp [operators])
  | mul => exact hop .mul (by simp [operators])
  | divide => exact hop .divide (by simp [operators])
  | mod => exact hop .mod (by simp [operators])
  | set => exact absurd rfl hp.1
  | env => exact absurd rfl hp.2.1
  | eq => exact absurd rfl hp.2.2
  | «defmacro» => exact .zero

end primitives
end Lisp
