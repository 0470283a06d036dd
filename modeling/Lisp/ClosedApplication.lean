import Lisp.ClosedEvaluation
import Lisp.Simulation

/-! Applications of closed closures: the calls that the body makes, and the environments that they
are made in, do not matter. -/
namespace Lisp
open ExceptState
variable {F : Type} {c d e : Config F} {s : Interpreter F} {ev : Nat → Eval F Nat}
  {evT : Obj F → Except Halt (Obj F)} {a o r args params fuel : Nat} {t u v tp tb tk : Obj F}
  {cs : List Nat} {h h' : Heap F} {bs : List Binding} {vs : List Nat} {n : Int}
  {N : Text → Prop} {ρ : Scope F} {S : Nat → Prop} {names ns : List (Option Text)}
  {xs : List (Except Halt (Obj F))}

section arguments

/-- The values of new bindings stay as they are. -/
theorem HeapOk.bindingTrees_mono (hh : HeapOk h S) (hext : Extends h h')
    (hvs : List.Forall₂ (fun b v => cellAt h b.slot = some (.list v 0)) bs vs) :
    bindingTrees h' bs = bindingTrees h bs := by
  induction hvs with
  | nil => rfl
  | @cons b v bs vs hb _ ih =>
    obtain ⟨t, cs, hr⟩ := hh.readable v (hh.part_le hb v (by simp [Cell.parts]))
    have hhead : treeOf h' (car h' b.slot) = treeOf h (car h b.slot) := by
      rw [car_eq hb, car_eq (hext.cellAt hb), hr.treeOf, (hr.mono hext).treeOf]
    simp only [bindingTrees, List.map_cons] at ih ⊢
    rw [hhead, ih]

/-- The arguments, one after the other, end as `xs`: those after one that halts do not matter. -/
inductive InTurn (ρ : Scope F) (ev : Nat → Eval F Nat) :
    List (Obj F) → List (Except Halt (Obj F)) → Prop where
  | nil : InTurn ρ ev [] []
  | value {e v : Obj F} {es : List (Obj F)} {xs : List (Except Halt (Obj F))}
      (he : EndsIn ρ ev e (.ok v)) (hes : InTurn ρ ev es xs) : InTurn ρ ev (e :: es) (.ok v :: xs)
  | halt {e : Obj F} {h : Halt} {es : List (Obj F)} {xs : List (Except Halt (Obj F))}
      (he : EndsIn ρ ev e (.error h)) : InTurn ρ ev (e :: es) (.error h :: xs)

theorem inTurn_of_forall {es : List (Obj F)} (h : List.Forall₂ (EndsIn ρ ev) es xs) :
    InTurn ρ ev es xs := by
  induction h with
  | nil => exact .nil
  | @cons e x _ _ he _ ih =>
    cases x with
    | ok v => exact .value he ih
    | error h => exact .halt he

theorem InTurn.head {e : Obj F} {es : List (Obj F)} {x : Except Halt (Obj F)}
    (h : InTurn ρ ev (e :: es) (x :: xs)) :
    EndsIn ρ ev e x ∧ ∀ v, x = .ok v → InTurn ρ ev es xs := by
  cases h with
  | value he hes => exact ⟨he, fun _ _ => hes⟩
  | halt he => exact ⟨he, by simp⟩

theorem Follows.cells (hev : Follows ρ N ev evT) (ht : GoodCode N t) :
    List.Forall₂ (EndsIn ρ ev) t.cells (t.cells.map evT) := by
  rw [List.forall₂_map_right_iff, List.forall₂_same]
  intro e he c o cs hρ hr
  exact hev c o e cs hρ hr (ht.cells e he)

variable [CFloat F]

/-- `associate` binds the names to the values of the arguments. -/
theorem wp_associate (hev : InTurn ρ ev t.cells xs) (hρ : c.scope = ρ)
    (hp : ParamList c.state.heap c.slots params ns) (hr : Reads c.state.heap args t cs)
    (hok : t.Ok) (htail : t.IsTail) :
    wp (associate ev fuel params args) (fun r s => ∃ d bs vs, Linked c d s r bs vs ∧
        Extends c.state.heap d.state.heap ∧ d.state.env = c.state.env ∧
        associateTree fuel ns xs = .ok (bindingTrees d.state.heap bs))
      (fun e _ => associateTree fuel ns xs = .error e) c.state := by
  induction fuel generalizing c params args ns t cs xs with
  | zero => rfl
  | succ fuel ih =>
    rw [associate]
    refine wp_get_bind.2 (wp_ite ?_ ?_)
    · intro hstop
      refine wp_pure.2 ⟨c, [], [], .nil c, .refl _, rfl, ?_⟩
      cases hp with
      | nil => cases xs <;> rfl
      | cons hp =>
        simp only [isList_eq hp, Bool.not_true, Bool.false_or, Bool.not_eq_true', hr.isList]
          at hstop
        cases t with
        | null =>
          cases hev
          rfl
        | list a d => cases hstop
        | _ => exact htail.elim
    · intro hlists
      simp only [Bool.or_eq_true, Bool.not_eq_true', not_or, Bool.not_eq_false] at hlists
      cases hp with
      | nil => simp [isList, cellAt_zero] at hlists
      | @cons _ next key name ns hp hkey hsp hnext =>
      cases t with
      | list ta td =>
        obtain ⟨x, y, _, _, hcell, -, hx, hy⟩ := hr.list_inv
        obtain ⟨z, zs, rfl⟩ : ∃ z zs, xs = z :: zs := by
          cases hev with
          | value => exact ⟨_, _, rfl⟩
          | halt => exact ⟨_, _, rfl⟩
        obtain ⟨hz, hzs⟩ := InTurn.head hev
        have hvalue :
            Ends c (notChecked (holding [params, args] (ev (car c.state.heap args)))) z := by
          apply Ends.notChecked
          apply Ends.holding
          intro d hext hscope
          rw [car_eq hcell]
          exact hz d _ _ (hscope.trans hρ) (hx.mono hext)
        refine wp_seq hvalue ?_ ?_
        · rintro v _ ⟨d, rfl, hgrows, tv, us, rfl, hv⟩
          have hcell' := hgrows.heap.cellAt hcell
          obtain ⟨e, -, -, hext, henv, -, -, hnext', hbind⟩ := wp_bindArgument ev fuel hp hkey hsp
            hnext hgrows.steps hgrows.balanced hv.valid.1 (cellAt_le hcell').2
          have hscope : e.scope = ρ := (scope_eq hext henv).trans (hgrows.scope.trans hρ)
          have hall := hgrows.heap.trans hext
          apply hbind
          rw [cdr_eq hcell']
          refine wp_mono (ih (hzs tv rfl) hscope hnext' (hy.mono hall) hok.2.1 hok.2.2) ?_ ?_
          · rintro r s ⟨d', bs, vs, hlink, hext', henv', hrest⟩
            refine ⟨d', bs, vs, hlink, fun r' s' hlinked => ⟨d', _, _, hlinked, hall.trans hext',
              henv'.trans (henv.trans hgrows.env), ?_⟩⟩
            obtain ⟨hslot, -⟩ := List.forall₂_cons.1 hlinked.values
            have hcons : bindingTrees d'.state.heap (⟨d.state.heap.length + 1, name⟩ :: bs) =
                (name, tv) :: bindingTrees d'.state.heap bs := by
              simp only [bindingTrees, List.map_cons, car_eq hslot,
                (hv.mono (hext.trans hext')).treeOf]
            rw [associateTree, hrest, hcons]
            rfl
          · rintro err _ hrest
            rw [associateTree, hrest]
            rfl
        · rintro err _ rfl
          rfl
      | null =>
        obtain rfl := hr.null_iff.2 rfl
        simp [isList, cellAt_zero] at hlists
      | _ => exact htail.elim

/-- The same while other objects are held. -/
theorem wp_holding_associate {os : List Nat} (hev : InTurn ρ ev t.cells xs)
    (hρ : c.scope = ρ) (hp : ParamList c.state.heap c.slots params ns)
    (hr : Reads c.state.heap args t cs) (htail : t.IsTail) :
    wp (holding os (associate ev fuel params args)) (fun r s => ∃ d bs vs, Linked c d s r bs vs ∧
        Extends c.state.heap d.state.heap ∧ d.state.env = c.state.env ∧
        associateTree fuel ns xs = .ok (bindingTrees d.state.heap bs))
      (fun e _ => associateTree fuel ns xs = .error e) c.state := by
  obtain ⟨c', hstate, hact, -, -, hrule⟩ := wp_holding_linked c os
  have henv : c'.state.env = c.state.env := by rw [hstate]
  have hext : Extends c.state.heap c'.state.heap := by
    rw [hstate]
    exact .refl _
  apply hrule
  refine wp_mono (wp_associate hev ((scope_eq hext henv).trans hρ) (hact.later.paramList hp)
    (hr.mono hext) (c.wf.heap.cells.tree hr) htail) ?_ fun _ _ h => h
  rintro r s ⟨d, bs, vs, hlink, hext', henv', heq⟩
  exact ⟨d, bs, vs, hlink, fun s' h => ⟨d, bs, vs, h, hext.trans hext', henv'.trans henv, heq⟩⟩

end arguments

section closures

/-- The parts of a closure. -/
theorem closure_parts (hr : Reads c.state.heap o (.closure tp tb tk n) cs)
    (hnames : tp.ParamTree names) :
    ∃ (p b k : Nat) (bs : List Binding) (cp cb ck : List Nat),
      cellAt c.state.heap o = some (.closure p b k n) ∧ n = paramCountOf names ∧
      ParamList c.state.heap c.slots p names ∧ EnvList c.state.heap c.slots k bs ∧
      Reads c.state.heap p tp cp ∧ Reads c.state.heap b tb cb ∧ Reads c.state.heap k tk ck := by
  obtain ⟨p, b, k, cp, cb, ck, hcell, -, hrp, hrb, hrk⟩ := hr.closure_inv
  obtain ⟨⟨ns, hp, hcount⟩, bs, hk⟩ := c.wf.heap.cells o _ hcell
  obtain rfl : ns = names := by
    have h1 := paramTree_iff.1 (hp.tree hrp)
    rw [paramTree_iff.1 hnames] at h1
    exact (Option.some.inj h1).symm
  exact ⟨p, b, k, bs, cp, cb, ck, hcell, hcount, hp, hk, hrp, hrb, hrk⟩

/-- The new closure captures the values of the arguments, in front of what the old one captured. -/
theorem PartialClosure.reads {missing : Nat} (hd : PartialClosure e d tp tb tk missing bs vs r)
    (hvs : List.Forall₂ (fun b v => cellAt e.state.heap b.slot = some (.list v 0)) bs vs) :
    bindingTrees d.state.heap bs = bindingTrees e.state.heap bs ∧
    ∃ cs, Reads d.state.heap r (.closure (tp.drop missing) tb
      (Obj.bindTree (bindingTrees e.state.heap bs ++ tk.bindings)) (tp.drop missing).paramCount)
      cs := by
  obtain ⟨bs₂, cp, cb, ck, params, proc, captured, rest, hclosure, hparams, hproc, hcapt, hrest,
    hrestEnv, -⟩ := hd.fields
  obtain ⟨tc, cc, hrc⟩ := d.wf.heap.readable captured hcapt.le
  have hnew := e.wf.heap.bindingTrees_mono hd.heap hvs
  have htc : tc = Obj.bindTree (bindingTrees e.state.heap bs ++ tk.bindings) := by
    rw [(hcapt.tree hrc).eq_bindTree, hcapt.bindings hrc, hrestEnv.bindings hrest, ← hnew,
      bindingTrees, List.map_append]
    rfl
  refine ⟨hnew, cp ++ cb ++ cc ++ [r], ?_⟩
  rw [← htc]
  exact .closure hclosure hparams hproc hrc

variable [CFloat F]

/-- A call with too few arguments. -/
theorem ends_partialApplication (hev : InTurn ρ ev t.cells xs) (hρ : c.scope = ρ)
    (ho : Reads c.state.heap o (.closure tp tb tk n) cs) (hnames : tp.ParamTree names)
    (hr : Reads c.state.heap args t vs) (htail : t.IsTail) :
    Ends c (closurePartialApplication ev fuel o args) (do
      let binds ← associateTree fuel names xs
      return .closure (tp.drop t.length) tb (Obj.bindTree (binds ++ tk.bindings))
        (tp.drop t.length).paramCount) := by
  obtain ⟨p, b, k, bs₂, _, _, _, hcell, -, hp, hk, hrp, hrb, hrk⟩ := closure_parts ho hnames
  obtain ⟨c₁, os, -, hsteps, hbal, hext, henv, -, hrule⟩ :=
    wp_closurePartialApplication ev fuel args hcell hp hk hrp hrb hrk
  apply hrule
  refine wp_mono (wp_holding_associate hev ((scope_eq hext henv).trans hρ)
    (hsteps.later.paramList hp) (hr.mono hext) htail) ?_ ?_
  · rintro r s ⟨e, bs, vs, hlink, hext', henv', heq⟩
    refine ⟨e, bs, vs, hlink, fun r' d hvalue hd => ?_⟩
    obtain ⟨-, cr, hread⟩ := hd.reads hlink.values
    refine ⟨d, rfl, ⟨(hsteps.trans hlink.steps).tail hd.action, hbal.trans hvalue.2,
      (hext.trans hext').trans hd.heap, hd.env.trans (henv'.trans henv)⟩, _, _, ?_, hread⟩
    rw [heq, hr.listLength]
    rfl
  · rintro err s heq
    rw [heq]
    rfl

/-- A call with all the arguments: the body is evaluated in the scope of the captured bindings, of
the arguments and of the call. -/
theorem ends_applyBody (fuel : Nat) (evB : Scope F → Obj F → Except Halt (Obj F))
    (hev : InTurn ρ ev t.cells xs) (hρ : c.scope = ρ)
    (ho : Reads c.state.heap o (.closure tp tb tk n) cs) (hnames : tp.ParamTree names)
    (hr : Reads c.state.heap args t vs) (htail : t.IsTail)
    (hbody : ∀ l, associateTree fuel names xs = .ok l →
      EndsIn (tk.bindings ++ l ++ ρ) ev tb (evB (tk.bindings ++ l ++ ρ) tb)) :
    Ends c (applyBody ev fuel o args) (do
      let binds ← associateTree fuel names xs
      evB (tk.bindings ++ binds ++ ρ) tb) := by
  obtain ⟨p, b, k, bs₂, _, _, _, hcell, -, hp, hk, hrp, hrb, hrk⟩ := closure_parts ho hnames
  have hparams : parameters c.state.heap o = p := by simp [parameters, hcell]
  refine (wp_congr (exec_applyBody c.state)).2 ?_
  rw [hparams]
  refine wp_seq (wp_holding_associate hev hρ hp hr htail) ?_ ?_
  · rintro r s ⟨d, bs, vs, hlink, hext, henv, heq⟩
    obtain ⟨e, capBs, hact, htop, hext', htrees, hvalues, hrule⟩ := wp_enterBody ev hlink
      (hext.cellAt hcell) (hlink.steps.later.envList hk) (hrk.mono hext)
    have hnew := d.wf.heap.bindingTrees_mono hext' hlink.values
    obtain ⟨te, ce, hre⟩ := d.wf.heap.readable _ d.wf.env.le
    have hcall : bindingTrees e.state.heap d.top = ρ := by
      rw [hext'.bindingTrees d.wf.env hre]
      exact (scope_eq hext henv).trans hρ
    have hscope : e.scope = tk.bindings ++ bindingTrees d.state.heap bs ++ ρ := by
      rw [Config.scope, htop, ← hnew, ← htrees, ← hcall]
      simp only [bindingTrees, List.map_append]
    apply hrule
    have hall := hext.trans hext'
    refine wp_mono (hbody _ heq e b _ hscope (hrb.mono hall)) ?_ ?_
    · rintro v _ ⟨e', rfl, hgrows, tv, us, hx, hv⟩
      refine ⟨e', rfl, ⟨hv.valid.1, hgrows.balanced⟩, fun f hleave hheap henv' hvalue => ?_⟩
      refine ⟨f, rfl, ⟨((hlink.steps.tail hact).trans hgrows.steps).tail hleave, hvalue.2, ?_,
        henv'.trans henv⟩, tv, us, ?_, hheap ▸ hv⟩
      · rw [hheap]
        exact hall.trans hgrows.heap
      · rw [heq]
        exact hx
    · rintro err _ hx
      rw [heq]
      exact hx
  · rintro err s heq
    rw [heq]
    rfl

end closures

section evaluation
variable [CFloat F]

theorem ends_notProcedure (ho : Reads c.state.heap o u cs) (hprimitive : u.isPrimitive = false)
    (hclosure : ∀ p b k n, u ≠ .closure p b k n) : Ends c (apply ev fuel o args) (.ok .null) := by
  unfold apply
  apply Ends.get
  cases u with
  | primitive p => cases hprimitive
  | closure p b k n => exact absurd rfl (hclosure p b k n)
  | null =>
    obtain rfl := ho.null_iff.2 rfl
    exact .zero
  | atom m =>
    simp only [ho.leaf_inv (c := .atom m) rfl]
    exact .zero
  | int z =>
    simp only [ho.leaf_inv (c := .int z) rfl]
    exact .zero
  | float z =>
    simp only [ho.leaf_inv (c := .float z) rfl]
    exact .zero
  | list a d =>
    obtain ⟨x, y, _, _, hcell, -⟩ := ho.list_inv
    simp only [hcell]
    exact .zero

/-- An application of a closed value, if the evaluator follows that of the trees in every scope. -/
theorem ends_apply (hs : Supports N ρ ρ)
    (hev : ∀ N (ρ : Scope F), Supports N ρ ρ → Follows ρ N (eval fuel) (evalTree fuel ρ))
    (hρ : c.scope = ρ) (ho : Reads c.state.heap o u cs) (hu : Good u)
    (hr : Reads c.state.heap args t vs) (ht : GoodCode N t) (htail : t.IsTail) :
    Ends c (apply (eval fuel) fuel o args) (applyTree (evalTree fuel) fuel ρ u t) := by
  cases u with
  | primitive p =>
    unfold apply
    apply Ends.get
    have hcell := ho.leaf_inv (c := .primitive p) rfl
    simp only [hcell, applyTree]
    exact ends_primitive hu.1 (hev N ρ hs) hρ hr ht htail
  | closure tp tb tk n =>
    unfold apply
    apply Ends.get
    obtain ⟨p, b, k, _, _, _, hcell, -⟩ := ho.closure_inv
    obtain ⟨-, -, -, -, ⟨names, hnames, -⟩, -⟩ := id hu
    have hp := paramTree_iff.1 hnames
    have hnargs : nargs c.state.heap o = n := by simp [nargs, hcell]
    simp only [hcell, applyTree, bindTrees, hp, Option.getD_some]
    refine .ite (by rw [hnargs, hr.listLength]) (fun _ => .zero) fun hmany => ?_
    rw [hnargs, hr.listLength]
    have hargs := inTurn_of_forall ((hev N ρ hs).cells ht)
    by_cases hfew : (t.length : Int) < n
    · simp only [if_pos hfew]
      exact ends_partialApplication hargs hρ ho hnames hr htail
    · simp only [if_neg hfew]
      refine ends_applyBody fuel _ hargs hρ ho hnames hr htail ?_
      intro l hl e b cs hscope hb
      have hbinds := agree_bindTrees fuel (fun t ht => agree_eval fuel hs ht) ht htail hp
      rw [bindTrees, hp] at hbinds
      obtain ⟨hfst, hgood⟩ := hbinds.2 l hl
      obtain ⟨hs', hb'⟩ := hu.body hp (by omega) hfst hgood hs
      exact hev _ _ hs' e b tb cs hscope hb hb'
  | _ => exact ends_notProcedure ho rfl (by simp)

/-- The value of a name. -/
theorem reads_lookup (c : Config F) {m : Text} (ho : cellAt c.state.heap o = some (.atom m)) :
    ∃ cs, Reads c.state.heap (lookup c.state.heap o c.state.env)
      ((c.scope.find m).getD .null) cs := by
  obtain ⟨te, ce, hre⟩ := c.wf.heap.readable _ c.wf.env.le
  obtain ⟨t, cs, hr⟩ := c.wf.heap.readable (lookup c.state.heap o c.state.env)
    (c.wf.heap.car_le _)
  refine ⟨cs, ?_⟩
  rw [scope_find]
  cases hfind : lookupTree c.state.heap c.top m with
  | none =>
    have hslot : slotOf c.top m = none := by simpa [lookupTree] using hfind
    have h0 : lookup c.state.heap o c.state.env = 0 := by
      rw [lookup, c.wf.env.lookupEntry hre ho, hslot]
      simp [car, cellAt_zero]
    rw [h0] at hr ⊢
    rw [hr.null_iff.1 rfl] at hr
    exact hr
  | some v =>
    have hv := c.wf.env.lookup_tree c.wf.heap hfind ho
    rw [hr.treeOf] at hv
    obtain rfl := hv
    exact hr

theorem Ends.eval {x : Except Halt (Obj F)} (h : Ends c (evalStep (eval fuel) fuel o) x) :
    Ends c (eval (fuel + 1) o) x :=
  h.record fun _ _ => ⟨rfl, rfl, rfl, ⟨rfl, rfl, rfl⟩, rfl⟩

/-- An application: the operator is evaluated, and applied to the arguments. -/
theorem endsIn_application {a b : Obj F} {x : Except Halt (Obj F)} {g : Obj F → Except Halt (Obj F)}
    (hnil : (Obj.list a b).isNil = false) (hx : EndsIn ρ (eval fuel) a x)
    (hg : ∀ (d : Config F) r y u us ys, d.scope = ρ → x = .ok u → Reads d.state.heap r u us →
      Reads d.state.heap y b ys → Ends d (apply (eval fuel) fuel r y) (g u)) :
    EndsIn ρ (eval (fuel + 1)) (.list a b) (x >>= g) := by
  intro c o cs hρ hr
  obtain ⟨p, q, _, _, hcell, -, hp, hq⟩ := hr.list_inv
  apply Ends.eval
  unfold evalStep
  apply Ends.get
  simp only [isAtom, isNumber, isInt, isFloat, isPrimitive, isClosure, hcell, isList_eq hcell,
    Bool.or_self, Bool.not_true, Bool.false_eq_true, if_false, hr.isNil, hnil, car_eq hcell]
  apply Ends.bind
  · apply Ends.holding
    intro d hext hscope
    exact hx d _ _ (hscope.trans hρ) (hp.mono hext)
  intro d r u us hgrows heq hu
  apply Ends.get
  rw [cdr_eq (hgrows.heap.cellAt hcell)]
  exact hg d r q u us _ (hgrows.scope.trans hρ) heq hu (hq.mono hgrows.heap)

/-- A truth name has itself as its value, another name what it is bound to. -/
theorem endsIn_atom (m : Text) : EndsIn ρ (eval (fuel + 1)) (.atom m)
    (.ok (if isTruthName m then .atom m else (ρ.find m).getD .null)) := by
  intro c o cs hρ hr
  have hcell := hr.leaf_inv (c := .atom m) rfl
  apply Ends.eval
  unfold evalStep
  apply Ends.get
  simp only [isAtom, hcell, if_true, isT, atomName, Bool.true_and]
  cases htruth : isTruthName m with
  | true => simpa only [if_true] using Ends.pure hr
  | false =>
    obtain ⟨vs, hv⟩ := reads_lookup c hcell
    rw [hρ] at hv
    simpa only [Bool.false_eq_true, if_false] using Ends.pure hv

/-- What is neither a name nor an application evaluates to itself. -/
theorem endsIn_self (hatom : t.isAtom = false) (hlist : t.isList = true → t.isNil = true) :
    EndsIn ρ (eval (fuel + 1)) t (.ok t) := by
  intro c o cs hρ hr
  apply Ends.eval
  unfold evalStep
  apply Ends.get
  cases t with
  | list a d =>
    obtain ⟨x, y, _, _, hcell, -⟩ := hr.list_inv
    simp only [isAtom, isNumber, isInt, isFloat, isPrimitive, isClosure, hcell, isList_eq hcell,
      Bool.or_self, Bool.not_true, Bool.false_eq_true, if_false, hr.isNil, hlist rfl, if_true]
    exact .pure hr
  | atom m => cases hatom
  | null =>
    obtain rfl := hr.null_iff.2 rfl
    simp only [isAtom, isNumber, isInt, isFloat, isPrimitive, isClosure, isList, cellAt_zero,
      Bool.or_self, Bool.not_false, Bool.false_eq_true, if_false, if_true]
    exact .zero
  | primitive p =>
    have hcell := hr.leaf_inv (c := .primitive p) rfl
    simp only [isAtom, isNumber, isInt, isFloat, isPrimitive, hcell, Bool.or_true, Bool.true_or,
      Bool.or_false, Bool.false_eq_true, if_false, if_true]
    exact .pure hr
  | int z =>
    have hcell := hr.leaf_inv (c := .int z) rfl
    simp only [isAtom, isNumber, isInt, isFloat, hcell, Bool.or_true, Bool.true_or,
      Bool.false_eq_true, if_false, if_true]
    exact .pure hr
  | float z =>
    have hcell := hr.leaf_inv (c := .float z) rfl
    simp only [isAtom, isNumber, isInt, isFloat, hcell, Bool.true_or,
      Bool.or_false, Bool.false_eq_true, if_false, if_true]
    exact .pure hr
  | closure tp tb tk n =>
    obtain ⟨p, b, k, _, _, _, hcell, -⟩ := hr.closure_inv
    simp only [isAtom, isNumber, isInt, isFloat, isPrimitive, isClosure, hcell, Bool.or_true,
      Bool.or_false, Bool.false_eq_true, if_false, if_true]
    exact .pure hr

/-- `eval` ends as the evaluation of the tree, for closed code in a scope that supports it. -/
theorem follows_eval (fuel : Nat) (hs : Supports N ρ ρ) :
    Follows ρ N (eval fuel) (evalTree fuel ρ) := by
  induction fuel generalizing N ρ with
  | zero =>
    intro c o t cs _ _ _
    exact .throw _
  | succ fuel ih =>
    intro c o t cs hρ hr ht
    cases t with
    | list a d =>
      cases hnil : (Obj.list a d).isNil with
      | true =>
        have hself : evalTree (fuel + 1) ρ (.list a d) = .ok (.list a d) := by
          rw [evalTree, if_pos hnil]
        rw [hself]
        exact endsIn_self rfl (fun _ => hnil) c o cs hρ hr
      | false =>
        obtain ⟨ha, hd⟩ := ht.list
        have hx : EndsIn ρ (eval fuel) a (evalTree fuel ρ a) := by
          intro c o cs hρ hr
          exact ih hs c o a cs hρ hr ha
        rw [evalTree, hnil]
        refine endsIn_application hnil hx ?_ c o cs hρ hr
        intro e r y u us ys hρ heq hu hy
        have hgood : Good u := (agree_eval fuel hs ha).2 u heq
        exact ends_apply hs (fun N ρ hs => ih hs) hρ hu hgood hy hd ht.2.2.2
    | atom m => exact endsIn_atom m c o cs hρ hr
    | _ => exact endsIn_self rfl (by simp [Obj.isList]) c o cs hρ hr

end evaluation

section independence

theorem EnvList.isTruthName {m : Text} (he : EnvList h S a bs) {b : Binding} (hb : b ∈ bs)
    (hm : b.name = some m) : isTruthName m = false := by
  induction he with
  | nil => cases hb
  | cons _ _ _ hkey _ _ _ ih =>
    rcases List.mem_cons.1 hb with rfl | hb
    · rw [hm] at hkey
      exact hkey.2
    · exact ih hb

/-- No environment binds a truth name. -/
theorem scope_truth (c : Config F) {m : Text} (hm : isTruthName m = true) :
    c.scope.find m = none := by
  rw [scope_find]
  cases hfind : lookupTree c.state.heap c.top m with
  | none => rfl
  | some v =>
    obtain ⟨slot, hslot, -⟩ := Option.map_eq_some_iff.1 hfind
    obtain ⟨b, hb, -, hname⟩ := slotOf_mem hslot
    rw [c.wf.env.isTruthName hb hname] at hm
    cases hm

theorem associateTree_ok {vs : List (Obj F)} (hf : vs.length < fuel) :
    associateTree fuel ns (vs.map .ok) = .ok (ns.zip vs) := by
  induction fuel generalizing ns vs with
  | zero => cases hf
  | succ fuel ih =>
    cases ns with
    | nil => cases vs <;> rfl
    | cons n ns =>
      cases vs with
      | nil => rfl
      | cons v vs =>
        rw [List.map_cons, associateTree, ih (Nat.lt_of_succ_lt_succ hf)]
        rfl

theorem fst_zip {α β : Type} (l : List α) (l' : List β) :
    (l.zip l').map Prod.fst = l.take l'.length := by
  induction l generalizing l' with
  | nil => simp
  | cons x l ih => cases l' <;> simp [ih]

theorem supports_scopes (c d : Config F) : Supports (fun _ => False) c.scope d.scope :=
  ⟨fun _ hm => hm.elim, fun _ hm => ⟨scope_truth c hm, scope_truth d hm⟩⟩

/-- What an expression evaluates to is as the interpreter makes it. -/
theorem EndsIn.ok (h : EndsIn c.scope ev t (.ok v)) (hr : Reads c.state.heap o t cs) : v.Ok := by
  have hend := h c o cs rfl hr
  rcases hx : exec (ev o) c.state with ⟨e | r, s⟩
  · cases (wp_error hx).1 hend
  · obtain ⟨d, -, -, u, us, heq, hu⟩ := (wp_ok hx).1 hend
    obtain rfl := Except.ok.inj heq
    exact d.wf.heap.cells.tree hu

variable {vs : List (Obj F)} {p b k : Obj F}

theorem ok_of_endsIn (h : List.Forall₂ (EndsIn c.scope ev) t.cells (vs.map .ok))
    (hr : Reads c.state.heap a t cs) : ∀ v ∈ vs, v.Ok := by
  induction t generalizing a vs cs with
  | list ta td _ ih =>
    obtain ⟨x, y, _, _, -, -, hx, hy⟩ := hr.list_inv
    cases vs with
    | nil => simp
    | cons v vs =>
      obtain ⟨hv, hvs⟩ := List.forall₂_cons.1 h
      intro w hw
      rcases List.mem_cons.1 hw with rfl | hw
      · exact hv.ok hx
      · exact ih hvs hy w hw
  | _ =>
    cases vs with
    | nil => simp
    | cons v vs => cases h

variable [CFloat F]

/-- Wherever the bindings are `ρ`, the expression `t` has the value `v`. -/
def HasValue (ρ : Scope F) (t v : Obj F) : Prop :=
  ∃ fuel₀, ∀ fuel, fuel₀ ≤ fuel → EndsIn ρ (eval fuel) t (.ok v)

/-- The expressions of the argument list have the values `vs`. -/
def Supplies (c : Config F) (args : Nat) (vs : List (Obj F)) : Prop :=
  ∃ t cs, Reads c.state.heap args t cs ∧ t.IsTail ∧ List.Forall₂ (HasValue c.scope) t.cells vs

/-- The tree of what the application of `o` to the arguments returns, or what halts it. -/
def applied (fuel : Nat) (c : Config F) (o args : Nat) : Except Halt (Obj F) :=
  match exec (apply (eval fuel) fuel o args) c.state with
  | (.ok r, s) => .ok (treeOf s.heap r)
  | (.error e, _) => .error e

/-- The application of `o` to the arguments returns an object that reads as `t`. -/
def Applies (c : Config F) (o args : Nat) (t : Obj F) : Prop :=
  ∃ fuel, applied fuel c o args = .ok t

theorem applied_eq {x : Except Halt (Obj F)} (h : Ends c (apply (eval fuel) fuel o args) x) :
    applied fuel c o args = x := by
  unfold applied
  rcases hx : exec (apply (eval fuel) fuel o args) c.state with ⟨e | r, s⟩
  · exact ((wp_error hx).1 h).symm
  · obtain ⟨d, rfl, -, t, cs, rfl, hr⟩ := (wp_ok hx).1 h
    rw [← hr.treeOf]

/-- More fuel does not change what an application returns. -/
theorem applied_mono {fuel' : Nat} (h : applied fuel c o args = .ok t) (hf : fuel ≤ fuel') :
    applied fuel' c o args = .ok t := by
  unfold applied at h ⊢
  rcases hx : exec (apply (eval fuel) fuel o args) c.state with ⟨e | r, s⟩
  · rw [hx] at h
    cases h
  · rw [hx] at h
    obtain ⟨s', hx', hsame⟩ :=
      (simulates_apply (simulates_eval hf) hf).returns hx c.state ⟨rfl, rfl, rfl⟩
    rw [hx']
    simp only [hsame.heap]
    exact h

theorem Supplies.endsIn (hs : List.Forall₂ (HasValue ρ) t.cells vs) :
    ∃ fuel₀, ∀ fuel, fuel₀ ≤ fuel → List.Forall₂ (EndsIn ρ (eval fuel)) t.cells (vs.map .ok) := by
  generalize t.cells = es at hs
  induction hs with
  | nil => exact ⟨0, fun _ _ => .nil⟩
  | cons he _ ih =>
    obtain ⟨f₁, h₁⟩ := he
    obtain ⟨f₂, h₂⟩ := ih
    refine ⟨max f₁ f₂, ?_⟩
    intro fuel hf
    exact .cons (h₁ fuel (by omega)) (h₂ fuel (by omega))

/-- With enough fuel for the arguments, an application of a closed closure ends as its body does in
the scope of the captured bindings and of the arguments. -/
theorem ends_application (hclosed : (Obj.closure p b k n).Closed)
    (hvs : ∀ v ∈ vs, v.Closed) (hlen : (vs.length : Int) = n)
    (ho : Reads c.state.heap o (.closure p b k n) cs) (hs : Supplies c args vs) :
    ∃ names fuel₀, p.paramNames = some names ∧ GoodScope (names.zip vs) ∧ ∀ fuel, fuel₀ ≤ fuel →
      Ends c (apply (eval fuel) fuel o args)
        (evalTree fuel (k.bindings ++ names.zip vs ++ c.scope) b) := by
  obtain ⟨t, ts, hr, htail, hvalues⟩ := hs
  obtain ⟨fuel₀, hends⟩ := Supplies.endsIn hvalues
  have hgood : Good (.closure p b k n) := ⟨hclosed, c.wf.heap.cells.tree ho⟩
  obtain ⟨-, -, -, -, ⟨names, hnames, -⟩, -⟩ := id hgood
  have hp := paramTree_iff.1 hnames
  have hok := ok_of_endsIn (hends fuel₀ (Nat.le_refl _)) hr
  have hscope : GoodScope (names.zip vs) := by
    intro x hx
    obtain ⟨hname, hv⟩ := List.of_mem_zip hx
    refine ⟨⟨hvs _ hv, hok _ hv⟩, ?_⟩
    intro m hm
    rw [hm] at hname
    exact isTruthName_paramNames hp m hname
  refine ⟨names, max fuel₀ (vs.length + 1), hp, hscope, ?_⟩
  intro fuel hf
  have hargs : t.length = vs.length := by
    rw [← length_cells (c.wf.heap.cells.tree hr) htail, hvalues.length_eq]
  obtain ⟨_, _, _, _, _, _, hcell, -⟩ := ho.closure_inv
  have hnargs : nargs c.state.heap o = n := by simp [nargs, hcell]
  unfold apply
  apply Ends.get
  simp only [hcell, hnargs, hr.listLength, hargs, hlen, lt_self_iff_false, if_false]
  have hturn := inTurn_of_forall (hends fuel (by omega))
  have hbody := ends_applyBody fuel (evalTree fuel) hturn rfl ho hnames hr htail fun l hl => ?_
  · rw [associateTree_ok (by omega)] at hbody
    exact hbody
  · rw [associateTree_ok (by omega)] at hl
    obtain rfl := Except.ok.inj hl
    intro e b' cs' hscope' hb'
    have hfst : (names.zip vs).map Prod.fst = names.take vs.length := fst_zip _ _
    obtain ⟨hs', hcode⟩ := hgood.body hp hlen hfst hscope (supports_scopes c c)
    exact follows_eval fuel hs' e b' b cs' hscope' hb' hcode

/-- An application of a closed closure to closed values does not depend on the environment of the
call: what is returned, which may be `NULL`, is returned in each environment, and with enough fuel
nothing is returned for the same reason. -/
theorem closed_application {o' args' : Nat} {cs' : List Nat}
    (hclosed : (Obj.closure p b k n).Closed) (hvs : ∀ v ∈ vs, v.Closed)
    (hlen : (vs.length : Int) = n) (ho : Reads c.state.heap o (.closure p b k n) cs)
    (hs : Supplies c args vs) (ho' : Reads d.state.heap o' (.closure p b k n) cs')
    (hs' : Supplies d args' vs) :
    (∀ t, Applies c o args t ↔ Applies d o' args' t) ∧
      ∃ fuel₀, ∀ fuel, fuel₀ ≤ fuel → applied fuel c o args = applied fuel d o' args' := by
  obtain ⟨names, fuel₁, hp, hscope, h₁⟩ := ends_application hclosed hvs hlen ho hs
  obtain ⟨names', fuel₂, hp', -, h₂⟩ := ends_application hclosed hvs hlen ho' hs'
  obtain rfl := Option.some.inj (hp.symm.trans hp')
  have hgood : Good (.closure p b k n) := ⟨hclosed, c.wf.heap.cells.tree ho⟩
  obtain ⟨hsupports, hcode⟩ := hgood.body hp hlen (fst_zip _ _) hscope (supports_scopes c d)
  have hsame : ∀ fuel, max fuel₁ fuel₂ ≤ fuel →
      applied fuel c o args = applied fuel d o' args' := by
    intro fuel hf
    rw [applied_eq (h₁ fuel (by omega)), applied_eq (h₂ fuel (by omega)),
      (agree_eval fuel hsupports hcode).1]
  refine ⟨fun t => ⟨?_, ?_⟩, _, hsame⟩
  · rintro ⟨fuel, h⟩
    refine ⟨max fuel (max fuel₁ fuel₂), ?_⟩
    rw [← hsame _ (by omega)]
    exact applied_mono h (by omega)
  · rintro ⟨fuel, h⟩
    refine ⟨max fuel (max fuel₁ fuel₂), ?_⟩
    rw [hsame _ (by omega)]
    exact applied_mono h (by omega)

/-- The closure of `(lambda (x) x)`, the arguments `(7)`, and an environment where `x` is `v`. -/
def callX : Heap NoFloat :=
  boundX ++ [⟨.list 1 0, false, false⟩, ⟨.closure 6 1 0 1, false, false⟩, ⟨.int 7, false, false⟩,
    ⟨.list 8 0, false, false⟩]

theorem reads_callX : Reads callX 7
    (.closure (.list (.atom ['x']) .null) (.atom ['x']) .null 1) [1, 6, 1, 7] := by
  have h₁ : Reads callX 1 (.atom ['x']) [1] := .leaf rfl rfl
  have h₆ := Reads.list (h := callX) (a := 6) rfl h₁ .null
  exact .closure rfl h₆ h₁ .null

theorem heapOk_callX (hS : ¬S 6) : HeapOk callX S := by
  constructor
  · intro a ha
    refine readable_of_earlier (fun a x y hc => ?_) (fun a p b c n hc => ?_) ha
    · have hle : a ≤ 9 := (cellAt_le hc).2
      interval_cases a <;> cases hc <;> decide
    · have hle : a ≤ 9 := (cellAt_le hc).2
      interval_cases a <;> cases hc
      decide
  · intro a c hac
    have ha : a ≤ 9 := (cellAt_le hac).2
    have hparams : ParamList callX S 6 [some ['x']] := .cons rfl ⟨rfl, by decide⟩ hS .nil
    have hclosure : CellOk callX S (.closure 6 1 0 1) := ⟨⟨_, hparams, rfl⟩, _, .nil⟩
    interval_cases a <;> cases hac <;> first | exact hclosure | trivial | exact Or.inl rfl |
      exact Or.inr ⟨_, _, rfl⟩

/-- The call in the empty environment. -/
def callEmpty : Config NoFloat where
  state := ⟨callX, 0, [], ⟨[], [], [], [], 0, 0⟩⟩
  top := []
  below := []
  pending := []
  wf := ⟨heapOk_callX (by simp [Slots]), .nil, .nil, .singleton _, by simp, by simp⟩

/-- The call where `x` is `v`. -/
def callBound : Config NoFloat where
  state := ⟨callX, 5, [], ⟨[], [], [], [], 0, 0⟩⟩
  top := [⟨3, some ['x']⟩]
  below := []
  pending := []
  wf := ⟨heapOk_callX (by simp [Slots]), .cons rfl rfl rfl ⟨rfl, by decide⟩ (by simp [Slots])
    (by simp [Slots]) .nil, .nil, .singleton _, by simp, by simp⟩

example : applied 3 callBound 7 9 = .ok (.int 7) := by decide +kernel

theorem supplies_callX {c : Config NoFloat} (hc : c.state.heap = callX) :
    Supplies c 9 [.int 7] := by
  have h₈ : Reads callX 8 (.int 7) [8] := .leaf rfl rfl
  refine ⟨.list (.int 7) .null, [8, 9], hc ▸ .list rfl h₈ .null, trivial, .cons ?_ .nil⟩
  refine ⟨1, fun fuel hf => ?_⟩
  obtain ⟨j, rfl⟩ : ∃ j, fuel = j + 1 := ⟨fuel - 1, by omega⟩
  intro d o cs hρ hr
  exact follows_eval (j + 1) (supports_scopes c c) d o _ cs hρ hr ⟨trivial, trivial⟩

theorem closed_application_x :
    (∀ t, Applies callEmpty 7 9 t ↔ Applies callBound 7 9 t) ∧
      ∃ fuel₀, ∀ fuel, fuel₀ ≤ fuel → applied fuel callEmpty 7 9 = applied fuel callBound 7 9 := by
  have hclosed : (Obj.closure (.list (.atom ['x']) .null) (.atom ['x']) .null 1 :
      Obj NoFloat).Closed := ⟨trivial, Or.inr (Or.inl (by decide))⟩
  have hvs : ∀ v ∈ [(.int 7 : Obj NoFloat)], v.Closed := by
    intro v hv
    rw [List.mem_singleton.1 hv]
    trivial
  exact closed_application hclosed hvs rfl reads_callX (supplies_callX rfl) reads_callX
    (supplies_callX rfl)

end independence
end Lisp
